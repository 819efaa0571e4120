import QuasiScript.Proofs.Brackets
import QuasiScript.Proofs.TargetLexemes

/-!
# Values of target texts

What a target text evaluates to is left open but for literals, arrays and the concatenation of arrays (`Semantics`): a
string literal has its contents, an array has the values of its items, and `[].concat(...)` appends the elements of
arguments that are arrays, and other arguments as they are. A text may have several values, since what it reads and
calls may differ from one evaluation to the next.

An evaluation like this exists for any choice of values of all other texts (`Semantics.ofOther`), since it can be told
from a text which of the four it is, and what its items are (`shape`).
-/
namespace QuasiScript
open Dialect (standard)

/-! ## Items of a list -/

namespace Brackets

/-- A text that can be an item of a list: it begins with no blank, its brackets match, and its commas are in brackets. -/
structure Operand (s : String) : Prop where
  begins : Begins s
  scans : scanWith false ⟨.code, []⟩ s.toList = some ⟨.code, []⟩

/-- A text cut at the commas outside of all brackets, if its brackets match. -/
def pieces : State → List Char → Option (List (List Char))
  | s, [] => if s = ⟨.code, []⟩ then some [[]] else none
  | s, c :: cs =>
    if c = ',' ∧ s = ⟨.code, []⟩ then (pieces s cs).map ([] :: ·)
    else (step s c).bind fun s' => (pieces s' cs).map (List.modifyHead (c :: ·))

def items? (text : List Char) : Option (List String) :=
  if text = [] then some []
  else (pieces ⟨.code, []⟩ text).map (List.map fun cs => String.ofList (cs.dropWhile (· == ' ')))

/-- A text in which nothing is cut. -/
theorem pieces_append (rest : List Char) : ∀ {text : List Char} {s s' : State}, scanWith false s text = some s' →
    pieces s (text ++ rest) = (pieces s' rest).map (List.modifyHead (text ++ ·))
  | [], s, s', h => by
    cases h
    rw [List.nil_append]
    cases pieces s rest with
    | none => rfl
    | some ps => cases ps <;> rfl
  | c :: text, s, s', h => by
    obtain ⟨s₁, hc, htext⟩ := Option.bind_eq_some_iff.1 (show (stepWith false s c).bind _ = _ from h)
    have hcut : ¬ (c = ',' ∧ s = ⟨.code, []⟩) := by
      intro hcut
      rw [stepWith, if_pos ⟨rfl, hcut⟩] at hc
      cases hc
    rw [List.cons_append, pieces, if_neg hcut, step_of_stepWith hc, Option.bind_some, pieces_append rest htext,
      Option.map_map]
    congr 1
    funext ps
    cases ps <;> rfl

/-- Items with commas and blanks between them, whatever the blanks are. -/
theorem pieces_intercalate (blank : String) (hblank : scanWith false ⟨.code, []⟩ blank.toList = some ⟨.code, []⟩) :
    ∀ (s : String) (ss : List String), (∀ t ∈ s :: ss, Operand t) →
      pieces ⟨.code, []⟩ (("," ++ blank).intercalate (s :: ss)).toList =
        some (s.toList :: ss.map (blank.toList ++ ·.toList))
  | s, [], h => by
    have hs := pieces_append [] (h s (by simp)).scans
    simpa [pieces] using hs
  | s, t :: ss, h => by
    obtain ⟨hs, hss⟩ := List.forall_mem_cons.1 h
    have hcat : (("," ++ blank).intercalate (s :: t :: ss)).toList =
        s.toList ++ ',' :: (blank.toList ++ (("," ++ blank).intercalate (t :: ss)).toList) := by
      simp [String.intercalate_cons_cons]
    rw [hcat, pieces_append _ hs.scans, pieces, if_pos ⟨rfl, rfl⟩, pieces_append _ hblank,
      pieces_intercalate blank hblank t ss hss]
    simp

theorem items?_intercalate {ss : List String} (h : ∀ s ∈ ss, Operand s) :
    items? (", ".intercalate ss).toList = some ss := by
  -- an item begins with no blank
  have htrim : ∀ s ∈ ss, String.ofList (s.toList.dropWhile (· == ' ')) = s := by
    intro s hs
    obtain ⟨c, hc, hne⟩ := (h s hs).begins
    have hblank : c ≠ ' ' := fun h => hne (by simp [h])
    have hcons := List.cons_head?_tail hc
    rw [← hcons, List.dropWhile_cons_of_neg (by simpa using hblank), hcons, String.ofList_toList]
  cases ss with
  | nil => rfl
  | cons s ss =>
    have hpieces : pieces ⟨.code, []⟩ (", ".intercalate (s :: ss)).toList =
        some (s.toList :: ss.map (' ' :: ·.toList)) := pieces_intercalate " " rfl s ss h
    have hne : (", ".intercalate (s :: ss)).toList ≠ [] := by
      intro hnil
      rw [hnil] at hpieces
      obtain ⟨c, hc, -⟩ := (h s (by simp)).begins
      have hs : [] = s.toList := (List.cons.inj (Option.some.inj hpieces)).1
      rw [← hs] at hc
      cases hc
    have hss : ss.map (fun t => String.ofList ((' ' :: t.toList).dropWhile (· == ' '))) = ss := by
      refine (List.map_congr_left fun t ht => ?_).trans (List.map_id ss)
      simpa using htrim t (List.mem_cons_of_mem s ht)
    rw [items?, if_neg hne, hpieces, Option.map_some, List.map_cons, htrim s (by simp), List.map_map]
    exact congrArg (fun ts => some (s :: ts)) hss

end Brackets

namespace Target
open Brackets (Operand items? items?_intercalate)

/-! ## Evaluation -/

/-- Values, where those that are neither literals nor strings nor arrays come from `ω`. A literal is known by its
spelling. -/
inductive Val (ω : Type) where
  | literal (spelling : String)
  | string (contents : String)
  | array (elements : List (Val ω))
  | other (x : ω)

def Val.spread {ω : Type} : Val ω → List (Val ω)
  | .array vs => vs
  | v => [v]

def IsLiteral (text : String) : Prop :=
  text ≠ "" ∧ (∀ c ∈ text.toList, Cursor.isAtomChar standard c = true) ∧ (standard.atomValue text).symbol? = none

instance : DecidablePred IsLiteral := fun _ => inferInstanceAs (Decidable (_ ∧ _ ∧ _))

/-- **What literals, arrays and concatenations evaluate to.** Spellings are idealised: every numeral of the language is
taken for a literal, and every text that can be an item for one. So `01.5` and an array with the item `a//b` have values
here, and not in the target, where the one is no numeral and the other begins a comment. -/
structure Semantics (ω : Type) where
  Evaluates : String → Val ω → Prop
  literal : ∀ text v, IsLiteral text → (Evaluates text v ↔ v = .literal text)
  string : ∀ s v, Evaluates (quote s) v ↔ v = .string s
  array : ∀ ss v, (∀ s ∈ ss, Operand s) →
    (Evaluates ("[" ++ ", ".intercalate ss ++ "]") v ↔ ∃ vs, List.Forall₂ Evaluates ss vs ∧ v = .array vs)
  concat : ∀ ss v, (∀ s ∈ ss, Operand s) → (Evaluates ("[].concat(" ++ ", ".intercalate ss ++ ")") v ↔
    ∃ vs, List.Forall₂ Evaluates ss vs ∧ v = .array (vs.flatMap Val.spread))

namespace Semantics
variable {ω : Type} {S : Semantics ω} {sole : Prop} {s : String} {ss : List String} {vs : List (Val ω)}

/-- The text may have the value, and if `sole` holds, then no other. -/
def Means (S : Semantics ω) (sole : Prop) (s : String) (v : Val ω) : Prop :=
  S.Evaluates s v ∧ (sole → ∀ w, S.Evaluates s w → w = v)

theorem means_literal (h : IsLiteral s) : S.Means sole s (.literal s) :=
  ⟨(S.literal s _ h).2 rfl, fun _ w hw => (S.literal s w h).1 hw⟩

theorem means_quote : S.Means sole (quote s) (.string s) :=
  ⟨(S.string s _).2 rfl, fun _ w hw => (S.string s w).1 hw⟩

theorem evaluates_of_means (h : List.Forall₂ (S.Means sole) ss vs) : List.Forall₂ S.Evaluates ss vs :=
  h.imp fun _ _ hs => hs.1

/-- Items with one value each have one list of values. -/
theorem eq_of_means (hsole : sole) (h : List.Forall₂ (S.Means sole) ss vs) {ws : List (Val ω)}
    (hws : List.Forall₂ S.Evaluates ss ws) : ws = vs := by
  induction h generalizing ws with
  | nil =>
    cases hws
    rfl
  | cons hs _ ih =>
    cases hws with
    | cons hw hws => rw [hs.2 hsole _ hw, ih hws]

theorem means_array (hss : ∀ s ∈ ss, Operand s) (h : List.Forall₂ (S.Means sole) ss vs) :
    S.Means sole ("[" ++ ", ".intercalate ss ++ "]") (.array vs) := by
  refine ⟨(S.array ss _ hss).2 ⟨vs, evaluates_of_means h, rfl⟩, fun hsole w hw => ?_⟩
  obtain ⟨ws, hws, rfl⟩ := (S.array ss w hss).1 hw
  rw [eq_of_means hsole h hws]

theorem means_concat (hss : ∀ s ∈ ss, Operand s) (h : List.Forall₂ (S.Means sole) ss vs) :
    S.Means sole ("[].concat(" ++ ", ".intercalate ss ++ ")") (.array (vs.flatMap Val.spread)) := by
  refine ⟨(S.concat ss _ hss).2 ⟨vs, evaluates_of_means h, rfl⟩, fun hsole w hw => ?_⟩
  obtain ⟨ws, hws, rfl⟩ := (S.concat ss w hss).1 hw
  rw [eq_of_means hsole h hws]

end Semantics

/-! ## Which texts are what -/

inductive Shape where
  | literal
  | string (contents : String)
  | array (items : List String)
  | concat (items : List String)
  | other

def between? (lead : List Char) (close : Char) (text : List Char) : Option (List Char) :=
  if lead <+: text ∧ text.getLast? = some close then some (text.drop lead.length).dropLast else none

def contents? : List Char → Option String
  | [] => none
  | c :: cs =>
    if c = '"' then ((readString cs).filter (·.2 = [])).map fun p => String.ofList p.1 else none

def shape (text : String) : Shape :=
  if IsLiteral text then .literal
  else
    let string := (contents? text.toList).map Shape.string
    let concat := ((between? "[].concat(".toList ')' text.toList).bind items?).map Shape.concat
    let array := ((between? ['['] ']' text.toList).bind items?).map Shape.array
    (string <|> concat <|> array).getD .other

theorem between?_append (lead body : List Char) (close : Char) :
    between? lead close (lead ++ body ++ [close]) = some body := by
  have hlead : lead <+: lead ++ body ++ [close] ∧ (lead ++ body ++ [close]).getLast? = some close := by simp
  rw [between?, if_pos hlead]
  simp

theorem not_isLiteral {s : String} {c : Char} (hc : c ∈ s.toList) (hdelimiter : c ∈ Cursor.delimiters) :
    ¬ IsLiteral s := fun h => Cursor.isAtomChar_standard.1 (h.2.1 c hc) hdelimiter

theorem shape_quote (s : String) : shape (quote s) = .string s := by
  have hne : ¬ IsLiteral (quote s) := not_isLiteral (c := '"') (by simp [quote]) (by decide)
  have hcat : (quote s).toList = '"' :: (s.toList.flatMap escape ++ '"' :: []) := by simp [quote]
  have hcontents : contents? (quote s).toList = some s := by
    rw [hcat, contents?, if_pos rfl, readString_flatMap_escape]
    simp
  rw [shape, if_neg hne, hcontents]
  rfl

theorem shape_array {ss : List String} (h : ∀ s ∈ ss, Operand s) :
    shape ("[" ++ ", ".intercalate ss ++ "]") = .array ss := by
  have hcat : ("[" ++ ", ".intercalate ss ++ "]").toList = ['['] ++ (", ".intercalate ss).toList ++ [']'] := by simp
  have hne : ¬ IsLiteral ("[" ++ ", ".intercalate ss ++ "]") := not_isLiteral (c := '[') (by simp) (by decide)
  -- it does not end like a call
  have hcall : between? "[].concat(".toList ')' (['['] ++ (", ".intercalate ss).toList ++ [']']) = none :=
    if_neg fun hends => absurd (List.getLast?_concat.symm.trans hends.2) (by decide)
  rw [shape, if_neg hne, hcat, hcall, between?_append, Option.bind_some, items?_intercalate h]
  rfl

theorem shape_concat {ss : List String} (h : ∀ s ∈ ss, Operand s) :
    shape ("[].concat(" ++ ", ".intercalate ss ++ ")") = .concat ss := by
  have hcat : ("[].concat(" ++ ", ".intercalate ss ++ ")").toList =
      "[].concat(".toList ++ (", ".intercalate ss).toList ++ [')'] := by simp
  have hne : ¬ IsLiteral ("[].concat(" ++ ", ".intercalate ss ++ ")") := not_isLiteral (c := '[') (by simp) (by decide)
  have hstring : contents? ("[].concat(".toList ++ (", ".intercalate ss).toList ++ [')']) = none := rfl
  rw [shape, if_neg hne, hcat, hstring, between?_append, Option.bind_some, items?_intercalate h]
  rfl

/-! ## An evaluation -/

section Evaluation
variable {ω : Type} (base : String → Val ω → Prop)

/-- Evaluation by the shapes of texts, where `base` has the values of all others. -/
inductive EvaluatesBy : String → Val ω → Prop
  | literal {t : String} : shape t = .literal → EvaluatesBy t (.literal t)
  | string {t s : String} : shape t = .string s → EvaluatesBy t (.string s)
  | array {t : String} {ss : List String} {vs : List (Val ω)} :
      shape t = .array ss → List.Forall₂ EvaluatesBy ss vs → EvaluatesBy t (.array vs)
  | concat {t : String} {ss : List String} {vs : List (Val ω)} :
      shape t = .concat ss → List.Forall₂ EvaluatesBy ss vs → EvaluatesBy t (.array (vs.flatMap Val.spread))
  | other {t : String} {v : Val ω} : shape t = .other → base t v → EvaluatesBy t v

/-- A text of a known shape has values by the rule for it. -/
theorem evaluatesBy_iff {base : String → Val ω → Prop} {t : String} {v : Val ω} : EvaluatesBy base t v ↔
    match shape t with
    | .literal => v = .literal t
    | .string s => v = .string s
    | .array ss => ∃ vs, List.Forall₂ (EvaluatesBy base) ss vs ∧ v = .array vs
    | .concat ss => ∃ vs, List.Forall₂ (EvaluatesBy base) ss vs ∧ v = .array (vs.flatMap Val.spread)
    | .other => base t v := by
  constructor
  · intro h
    cases h with
    | literal h => rw [h]
    | string h => rw [h]
    | array h hvs =>
      rw [h]
      exact ⟨_, hvs, rfl⟩
    | concat h hvs =>
      rw [h]
      exact ⟨_, hvs, rfl⟩
    | other h hv =>
      rw [h]
      exact hv
  · intro h
    split at h
    · rename_i ht
      rw [h]
      exact .literal ht
    · rename_i ht
      rw [h]
      exact .string ht
    · rename_i ht
      obtain ⟨vs, hvs, rfl⟩ := h
      exact .array ht hvs
    · rename_i ht
      obtain ⟨vs, hvs, rfl⟩ := h
      exact .concat ht hvs
    · rename_i ht
      exact .other ht h

/-- **Evaluation for any values of the texts that are no literals, arrays or concatenations.** -/
def Semantics.ofOther : Semantics ω where
  Evaluates := EvaluatesBy base
  literal t v h := by rw [evaluatesBy_iff, shape, if_pos h]
  string s v := by rw [evaluatesBy_iff, shape_quote]
  array ss v h := by rw [evaluatesBy_iff, shape_array h]
  concat ss v h := by rw [evaluatesBy_iff, shape_concat h]

end Evaluation

end Target
end QuasiScript
