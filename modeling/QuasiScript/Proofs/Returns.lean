import QuasiScript.Proofs.Incremental
import QuasiScript.Proofs.Printing

/-!
# What functions return

A path leads from a node to one of its elements, by the number of an element at each step. `TailOf` says which elements
are in tail position of a function: the last one of its body, and inward from there the last ones of sequences, of the
clauses of conditionals and of guarded blocks. No other function lies between, so it is the innermost one.

The marks stand exactly at the elements that are in tail position of a function which is evaluated, except for forms that
have no value to yield themselves (`returned_mark`). So an accepted program is printed with `return` at these places and
at no others (`generate_returns`).
-/
namespace QuasiScript
open Dialect (standard)

namespace Marked
open Emit

def elements : Marked → List Marked
  | .leaf _ _ _ => []
  | .list _ es _ => es

def at? : Marked → List Nat → Option Marked
  | m, [] => some m
  | m, i :: path => m.elements[i]?.bind (·.at? path)

/-! ## Tail positions -/

section Positions
variable (d : Dialect)

/-- An element is the end of a node, if the node is at the end of a function: it is the node itself, or the end of the
last element of a sequence, of a clause or of a guarded block. -/
inductive TailFrom : Node → List Nat → Node → Prop
  | here (n : Node) : TailFrom n [] n
  | sequence {es : List Node} {t : Token} {i : Nat} {e m : Node} {path : List Nat} :
      formOf d (.list es t) = .sequence → 1 ≤ i → i + 1 = es.length → es[i]? = some e → TailFrom e path m →
      TailFrom (.list es t) (i :: path) m
  | when {es : List Node} {t : Token} {i : Nat} {e m : Node} {path : List Nat} :
      formOf d (.list es t) = .when → 2 ≤ i → i + 1 = es.length → es[i]? = some e → TailFrom e path m →
      TailFrom (.list es t) (i :: path) m
  | clause {es cs : List Node} {t u : Token} {i j : Nat} {e m : Node} {path : List Nat} :
      formOf d (.list es t) = .conditional → es[i]? = some (.list cs u) → 1 ≤ j → j + 1 = cs.length →
      cs[j]? = some e → TailFrom e path m → TailFrom (.list es t) (i :: j :: path) m

/-- **Tail positions of a function.** -/
inductive TailOf : Node → List Nat → Node → Prop
  | body {es : List Node} {t : Token} {i : Nat} {e m : Node} {path : List Nat} :
      formOf d (.list es t) = .lambda → 2 ≤ i → i + 1 = es.length → es[i]? = some e → TailFrom d e path m →
      TailOf (.list es t) (i :: path) m

inductive Unquoted : Node → List Nat → Node → Prop
  | here {es : List Node} {t : Token} {i : Nat} {e : Node} :
      formOf d (.list es t) = .unquote ∨ formOf d (.list es t) = .unquoteSplicing → es[i]? = some e →
      Unquoted (.list es t) [i] e
  | inside {es : List Node} {t : Token} {i : Nat} {e m : Node} {path : List Nat} :
      formOf d (.list es t) ≠ .unquote → formOf d (.list es t) ≠ .unquoteSplicing → es[i]? = some e →
      Unquoted e path m → Unquoted (.list es t) (i :: path) m

/-- What is evaluated in a node that is: neither parameters nor clauses as such nor quoted data. -/
inductive Evaluated : Node → List Nat → Node → Prop
  | here (n : Node) : Evaluated n [] n
  | element {es : List Node} {t : Token} {i : Nat} {e m : Node} {path : List Nat} :
      formOf d (.list es t) ∉ [.lambda, .conditional, .quote, .quasiquote] → es[i]? = some e → Evaluated e path m →
      Evaluated (.list es t) (i :: path) m
  | body {es : List Node} {t : Token} {i : Nat} {e m : Node} {path : List Nat} :
      formOf d (.list es t) = .lambda → 2 ≤ i → es[i]? = some e → Evaluated e path m →
      Evaluated (.list es t) (i :: path) m
  | clause {es cs : List Node} {t u : Token} {i j : Nat} {e m : Node} {path : List Nat} :
      formOf d (.list es t) = .conditional → es[i]? = some (.list cs u) → cs[j]? = some e → Evaluated e path m →
      Evaluated (.list es t) (i :: j :: path) m
  | unquoted {es : List Node} {t : Token} {i : Nat} {e e' m : Node} {inner path : List Nat} :
      formOf d (.list es t) = .quasiquote → es[i]? = some e → Unquoted d e inner e' → Evaluated e' path m →
      Evaluated (.list es t) (i :: (inner ++ path)) m

def TailWithin (n : Node) (path : List Nat) (m : Node) : Prop :=
  ∃ before after fn, path = before ++ after ∧ Evaluated d n before fn ∧ TailOf d fn after m

def TailWithinTemplate (n : Node) (path : List Nat) (m : Node) : Prop :=
  ∃ inner path' e, path = inner ++ path' ∧ Unquoted d n inner e ∧ TailWithin d e path' m

end Positions

/-! ## One step inward -/

section Steps
variable {d : Dialect} {es : List Node} {t : Token} {i : Nat} {path : List Nat} {m n : Node}

theorem not_tailWithin_nil : ¬ TailWithin d n [] m := by
  rintro ⟨before, after, fn, hpath, -, htail⟩
  obtain ⟨rfl, rfl⟩ := List.append_eq_nil_iff.1 hpath.symm
  cases htail

/-- One step inward from a node that is evaluated, by its form. -/
theorem tailWithin_list : TailWithin d (.list es t) (i :: path) m ↔
    match formOf d (.list es t) with
    | .lambda => ∃ e, es[i]? = some e ∧ 2 ≤ i ∧ (i + 1 = es.length ∧ TailFrom d e path m ∨ TailWithin d e path m)
    | .conditional => ∃ cs u, es[i]? = some (.list cs u) ∧
        ∃ j e path', path = j :: path' ∧ cs[j]? = some e ∧ TailWithin d e path' m
    | .quote => False
    | .quasiquote => ∃ e, es[i]? = some e ∧ TailWithinTemplate d e path m
    | _ => ∃ e, es[i]? = some e ∧ TailWithin d e path m := by
  constructor
  · rintro ⟨before, after, fn, hpath, hev, htail⟩
    cases hev with
    | here =>
      cases htail with
      | body hform hi hlast he hfrom =>
        obtain ⟨rfl, rfl⟩ := List.cons.inj hpath
        simp only [hform]
        exact ⟨_, he, hi, .inl ⟨hlast, hfrom⟩⟩
    | body hform hi he hev =>
      obtain ⟨rfl, rfl⟩ := List.cons.inj hpath
      simp only [hform]
      exact ⟨_, he, hi, .inr ⟨_, after, fn, rfl, hev, htail⟩⟩
    | clause hform hcs he hev =>
      obtain ⟨rfl, rfl⟩ := List.cons.inj hpath
      simp only [hform]
      exact ⟨_, _, hcs, _, _, _, rfl, he, _, after, fn, rfl, hev, htail⟩
    | unquoted hform he hun hev =>
      obtain ⟨rfl, rfl⟩ := List.cons.inj hpath
      simp only [hform]
      exact ⟨_, he, _, _, _, List.append_assoc .., hun, _, after, fn, rfl, hev, htail⟩
    | element hform he hev =>
      obtain ⟨rfl, rfl⟩ := List.cons.inj hpath
      split
      case h_5 => exact ⟨_, he, _, after, fn, rfl, hev, htail⟩
      all_goals rename_i h; exact absurd (by simp [h]) hform
  · intro h
    split at h
    · rename_i hform
      obtain ⟨e, he, hi, ⟨hlast, hfrom⟩ | ⟨before, after, fn, rfl, hev, htail⟩⟩ := h
      · exact ⟨[], i :: path, _, rfl, .here _, .body hform hi hlast he hfrom⟩
      · exact ⟨i :: before, after, fn, rfl, .body hform hi he hev, htail⟩
    · rename_i hform
      obtain ⟨cs, u, hcs, j, e, path', rfl, he, before, after, fn, rfl, hev, htail⟩ := h
      exact ⟨i :: j :: before, after, fn, rfl, .clause hform hcs he hev, htail⟩
    · exact h.elim
    · rename_i hform
      obtain ⟨e, he, inner, _, e', rfl, hun, before, after, fn, rfl, hev, htail⟩ := h
      exact ⟨i :: (inner ++ before), after, fn, by simp, .unquoted hform he hun hev, htail⟩
    · rename_i hlambda hconditional hquote hquasi
      obtain ⟨e, he, before, after, fn, rfl, hev, htail⟩ := h
      have hform : formOf d (.list es t) ∉ [.lambda, .conditional, .quote, .quasiquote] := by
        simpa using ⟨hlambda, hconditional, hquote, hquasi⟩
      exact ⟨i :: before, after, fn, rfl, .element hform he hev, htail⟩

theorem not_tailWithinTemplate_nil : ¬ TailWithinTemplate d n [] m := by
  rintro ⟨inner, path', e, hpath, hun, -⟩
  obtain ⟨rfl, rfl⟩ := List.append_eq_nil_iff.1 hpath.symm
  cases hun

theorem tailWithinTemplate_unquote
    (hform : formOf d (.list es t) = .unquote ∨ formOf d (.list es t) = .unquoteSplicing) :
    TailWithinTemplate d (.list es t) (i :: path) m ↔ ∃ e, es[i]? = some e ∧ TailWithin d e path m := by
  constructor
  · rintro ⟨inner, path', e, hpath, hun, hin⟩
    cases hun with
    | here _ he =>
      obtain ⟨rfl, rfl⟩ := List.cons.inj hpath
      exact ⟨_, he, hin⟩
    | inside hu hs => exact (hform.elim hu hs).elim
  · rintro ⟨e, he, hin⟩
    exact ⟨[i], path, e, rfl, .here hform he, hin⟩

theorem tailWithinTemplate_inside (hu : formOf d (.list es t) ≠ .unquote) (hs : formOf d (.list es t) ≠ .unquoteSplicing) :
    TailWithinTemplate d (.list es t) (i :: path) m ↔ ∃ e, es[i]? = some e ∧ TailWithinTemplate d e path m := by
  constructor
  · rintro ⟨inner, path', e, hpath, hun, hin⟩
    cases hun with
    | here hform => exact (hform.elim hu hs).elim
    | inside _ _ he hun =>
      obtain ⟨rfl, rfl⟩ := List.cons.inj hpath
      exact ⟨_, he, _, path', e, rfl, hun, hin⟩
  · rintro ⟨e, he, inner, path', e', rfl, hun, hin⟩
    exact ⟨i :: inner, path', e', rfl, .inside hu hs he hun, hin⟩

/-- One step inward from the end of a function. -/
theorem tailFrom_list : TailFrom d (.list es t) (i :: path) m ↔
    match formOf d (.list es t) with
    | .sequence => ∃ e, es[i]? = some e ∧ 1 ≤ i ∧ i + 1 = es.length ∧ TailFrom d e path m
    | .when => ∃ e, es[i]? = some e ∧ 2 ≤ i ∧ i + 1 = es.length ∧ TailFrom d e path m
    | .conditional => ∃ cs u, es[i]? = some (.list cs u) ∧
        ∃ j e path', path = j :: path' ∧ cs[j]? = some e ∧ 1 ≤ j ∧ j + 1 = cs.length ∧ TailFrom d e path' m
    | _ => False := by
  constructor
  · intro h
    cases h with
    | sequence hform hi hlast he hfrom =>
      simp only [hform]
      exact ⟨_, he, hi, hlast, hfrom⟩
    | «when» hform hi hlast he hfrom =>
      simp only [hform]
      exact ⟨_, he, hi, hlast, hfrom⟩
    | clause hform hcs hj hlast he hfrom =>
      simp only [hform]
      exact ⟨_, _, hcs, _, _, _, rfl, he, hj, hlast, hfrom⟩
  · intro h
    split at h
    · obtain ⟨e, he, hi, hlast, hfrom⟩ := h
      exact .sequence ‹_› hi hlast he hfrom
    · obtain ⟨e, he, hi, hlast, hfrom⟩ := h
      exact .when ‹_› hi hlast he hfrom
    · obtain ⟨cs, u, hcs, j, e, path', rfl, he, hj, hlast, hfrom⟩ := h
      exact .clause ‹_› hcs hj hlast he hfrom
    · exact h.elim

end Steps

/-! ## Elements of marked nodes -/

section Elements
variable {d : Dialect}

theorem getElem?_markFrom (tail : Bool) : ∀ (ns : List Node) (k i : Nat), (markFrom d k tail ns)[i]? =
    ns[i]?.map (mark d (tail && decide (k ≤ i) && decide (i + 1 = ns.length)))
  | [], _, _ => by simp [markFrom]
  | n :: ns, k, 0 => by
    have hk : (k == 0) = decide (k ≤ 0) := by cases k <;> simp
    have hlast : ns.isEmpty = decide (0 + 1 = (n :: ns).length) := by cases ns <;> simp
    rw [markFrom, hk, hlast]
    rfl
  | n :: ns, k, i + 1 => by
    have hk : decide (k - 1 ≤ i) = decide (k ≤ i + 1) := by
      rw [decide_eq_decide]
      omega
    rw [markFrom, List.getElem?_cons_succ, getElem?_markFrom tail ns (k - 1) i, hk]
    simp

theorem getElem?_plainEach : ∀ (ns : List Node) (i : Nat), (plainEach ns)[i]? = ns[i]?.map plain
  | [], _ => rfl
  | _ :: _, 0 => rfl
  | _ :: ns, i + 1 => getElem?_plainEach ns i

theorem getElem?_markTemplates : ∀ (ns : List Node) (i : Nat), (markTemplates d ns)[i]? = ns[i]?.map (markTemplate d)
  | [], _ => rfl
  | _ :: _, 0 => rfl
  | _ :: ns, i + 1 => getElem?_markTemplates ns i

def markClause (d : Dialect) (tail : Bool) : Node → Marked
  | .leaf v t => .leaf false v t
  | .list es t => .list false (markFrom d 1 tail es) t

theorem getElem?_markClauses (tail : Bool) : ∀ (ns : List Node) (i : Nat),
    (markClauses d tail ns)[i]? = ns[i]?.map (markClause d tail)
  | [], _ => rfl
  | .leaf _ _ :: _, 0 => rfl
  | .list _ _ :: _, 0 => rfl
  | .leaf _ _ :: ns, i + 1 => getElem?_markClauses tail ns i
  | .list _ _ :: ns, i + 1 => getElem?_markClauses tail ns i

def markFunction (d : Dialect) : List Node → List Marked
  | [] => []
  | n :: args => plain n :: markLambda d args

theorem getElem?_markFunction : ∀ (ns : List Node) (i : Nat), (markFunction d ns)[i]? =
    ns[i]?.map fun n => if i < 2 then plain n else mark d (decide (i + 1 = ns.length)) n
  | [], _ => rfl
  | [_], 0 => rfl
  | [_], _ + 1 => rfl
  | _ :: _ :: _, 0 => rfl
  | _ :: _ :: _, 1 => rfl
  | n :: ps :: body, i + 2 => by
    have hbody := getElem?_markFrom (d := d) true body 0 i
    rw [Bool.true_and, decide_eq_true (Nat.zero_le i), Bool.true_and] at hbody
    simpa [markFunction, markLambda] using hbody

theorem not_returned_plain : ∀ (path : List Nat) {n : Node} {m : Marked}, (plain n).at? path = some m → m.returned = false
  | [], .leaf _ _, _, h => by cases h; rfl
  | [], .list _ _, _, h => by cases h; rfl
  | _ :: _, .leaf _ _, _, h => by cases h
  | i :: path, .list es t, m, h => by
    rw [plain, at?, elements, getElem?_plainEach] at h
    cases he : es[i]? with
    | none => simp [he] at h
    | some e =>
      rw [he] at h
      exact not_returned_plain path h

end Elements

/-! ## Marks are at tail positions -/

section Marks
variable {d : Dialect}

/-- A special form leads with its name. -/
theorem exists_leaf_of_formOf {n : Node} {args : List Node} {t : Token} (h : formOf d (.list (n :: args) t) ≠ .ordinary) :
    ∃ v u, n = .leaf v u := by
  cases n with
  | leaf v u => exact ⟨v, u, rfl⟩
  | list es u => exact absurd rfl h

/-- The elements of a marked node, by its form. -/
theorem elements_mark (es : List Node) (t : Token) (tail : Bool) : (mark d tail (.list es t)).elements =
    match formOf d (.list es t) with
    | .lambda => markFunction d es
    | .sequence => markFrom d 1 tail es
    | .when => markFrom d 2 tail es
    | .conditional => markClauses d tail es
    | .quote => plainEach es
    | .quasiquote => markTemplates d es
    | _ => markFrom d 0 false es := by
  cases es with
  | nil => rfl
  | cons n args =>
    rw [mark_cons, elements]
    cases hform : formOf d (.list (n :: args) t) with
    | sequence => simp only [markArguments, markFrom_succ]
    | «when» => simp only [markArguments, markFrom_succ]
    | lambda | conditional | quote | quasiquote =>
      obtain ⟨v, u, rfl⟩ := exists_leaf_of_formOf (h := by rw [hform]; simp)
      rfl
    | _ => simp only [markArguments, markFrom_zero, Bool.false_and]

theorem returned_mark_self (n : Node) (tail : Bool) : (mark d tail n).returned = (tail && yields (formOf d n)) := by
  rcases n with ⟨v, t⟩ | ⟨_ | ⟨n, args⟩, t⟩
  · simp [mark, returned, formOf, yields]
  · simp [mark, returned, formOf, Node.head?, yields]
  · rfl

/-- A path into elements that are marked one by one leads into one of them. -/
theorem exists_of_map {mark : Node → Marked} {es : List Node} {i : Nat} {path : List Nat} {m : Marked}
    (h : (es[i]?.map mark).bind (·.at? path) = some m) : ∃ e, es[i]? = some e ∧ (mark e).at? path = some m := by
  rw [Option.bind_map] at h
  exact Option.bind_eq_some_iff.1 h

mutual

/-- **The marks stand exactly at the elements in tail position** that have a value to yield. -/
theorem returned_mark : ∀ (path : List Nat) (n : Node) (tail : Bool) (m : Marked), (mark d tail n).at? path = some m →
    (m.returned = true ↔ yields (formOf d m.node) = true ∧
      (tail = true ∧ TailFrom d n path m.node ∨ TailWithin d n path m.node))
  | [], n, tail, m, h => by
    cases h
    have hfrom : TailFrom d n [] n := .here n
    rw [returned_mark_self, node_mark]
    simp [hfrom, not_tailWithin_nil, and_comm]
  | _ :: _, .leaf _ _, _, _, h => by cases h
  | i :: path, .list es t, tail, m, h => by
    rw [at?, elements_mark] at h
    rw [tailFrom_list, tailWithin_list]
    cases hform : formOf d (.list es t) with
    | conditional =>
      simp only [hform, getElem?_markClauses] at h ⊢
      obtain ⟨e, he, hm⟩ := exists_of_map h
      rcases e with ⟨v, u⟩ | ⟨cs, u⟩
      · have hfalse : m.returned = false := not_returned_plain (n := .leaf v u) path hm
        simp [hfalse, he]
      · cases path with
        | nil =>
          cases hm
          simp [returned, markClause]
        | cons j path =>
          rw [markClause, at?, elements, getElem?_markFrom] at hm
          obtain ⟨e, hc, hm⟩ := exists_of_map hm
          rw [returned_mark path e _ m hm]
          simp [he, hc, and_assoc]
    | lambda =>
      simp only [hform, getElem?_markFunction] at h ⊢
      obtain ⟨e, he, hm⟩ := exists_of_map h
      -- neither the name of the form nor its parameters are evaluated
      by_cases hi : i < 2
      · rw [if_pos hi] at hm
        simp [not_returned_plain path hm, Nat.not_le.2 hi]
      · rw [if_neg hi] at hm
        rw [returned_mark path e _ m hm]
        simp [he, Nat.not_lt.1 hi]
    | quote =>
      simp only [hform, getElem?_plainEach] at h ⊢
      obtain ⟨e, he, hm⟩ := exists_of_map h
      simp [not_returned_plain path hm]
    | quasiquote =>
      simp only [hform, getElem?_markTemplates] at h ⊢
      obtain ⟨e, he, hm⟩ := exists_of_map h
      rw [returned_template path e m hm]
      simp [he]
    | _ =>
      -- elements that are all evaluated, of which sequences and guarded blocks end in the last
      simp only [hform, getElem?_markFrom] at h ⊢
      obtain ⟨e, he, hm⟩ := exists_of_map h
      rw [returned_mark path e _ m hm]
      simp [he, and_assoc]

/-- In a template they are only in the code that it inserts. -/
theorem returned_template : ∀ (path : List Nat) (n : Node) (m : Marked), (markTemplate d n).at? path = some m →
    (m.returned = true ↔ yields (formOf d m.node) = true ∧ TailWithinTemplate d n path m.node)
  | [], n, m, h => by
    cases h
    cases n <;> simp [markTemplate, returned, not_tailWithinTemplate_nil]
  | _ :: _, .leaf _ _, _, h => by cases h
  | i :: path, .list es t, m, h => by
    by_cases hform : formOf d (.list es t) = .unquote ∨ formOf d (.list es t) = .unquoteSplicing
    · have hmark : markTemplate d (.list es t) = .list false (markFrom d 0 false es) t := by
        rcases hform with hform | hform <;> rw [markTemplate, hform]
      rw [hmark, at?, elements, getElem?_markFrom] at h
      obtain ⟨e, he, hm⟩ := exists_of_map h
      rw [returned_mark path e _ m hm, tailWithinTemplate_unquote hform]
      simp [he]
    · obtain ⟨hu, hs⟩ := not_or.1 hform
      rw [markTemplate_of_ne hu hs, at?, elements, getElem?_markTemplates] at h
      obtain ⟨e, he, hm⟩ := exists_of_map h
      rw [returned_template path e m hm, tailWithinTemplate_inside hu hs]
      simp [he]

end

end Marks

end Marked

/-! ## Programs -/

namespace Emit
open Marked

theorem printEach_eq_map {d : Dialect} (p : Site) (ns : List Node) :
    printEach d (markFrom d 0 false ns) p = ns.map fun n => print d (mark d false n) p := by
  induction ns with
  | nil => rfl
  | cons n ns ih => rw [markFrom_zero, printEach, ih, Bool.false_and, List.map_cons]

/-- **A program returns what its functions end in.** An accepted program is printed with `return` before the elements
that are in tail position of a function and have a value to yield, and before no others. -/
theorem generate_returns {d : Dialect} {T T' : ScopeTable} {ns : List Node} {code : String}
    (h : generate d T ns = (.ok code, T')) :
    code = String.join (ns.map fun n => print d (mark d false n) .top ++ ";\n") ∧
      ∀ n ∈ ns, (mark d false n).node = n ∧ ∀ path m, (mark d false n).at? path = some m →
        (m.returned = true ↔ yields (formOf d m.node) = true ∧
          ∃ before after fn, path = before ++ after ∧ Evaluated d n before fn ∧ TailOf d fn after m.node) := by
  obtain ⟨codes, hcodes, rfl⟩ := generate_eq_ok_iff.1 h
  constructor
  · have hprint : codes = ns.map fun n => print d (mark d false n) .top := by
      rw [nodes_print ns .top rfl T codes T' hcodes]
      exact printEach_eq_map .top ns
    rw [hprint, List.map_map]
    rfl
  · intro n _
    refine ⟨node_mark n false, fun path m hm => ?_⟩
    -- the program itself is no function, so nothing is returned but from functions in it
    have hmarks := returned_mark path n false m hm
    simpa [TailWithin] using hmarks

/-- The last element of the sequence in the first clause is returned, and the last one of the loop is not. -/
theorem generate_returns_branches :
    (generate standard .initial
        (Reading.ofText standard "(fun (x) (while x x) (if (x (begin 1 x)) (else (var y))))".toList).nodes).1 =
      .ok "(function(x) \x7b while (x) \x7b x; \x7d;\n  if (x) \x7b \x7b 1;\n      return x; \x7d; \x7d\n  else \x7b var y; \x7d; \x7d);\n" ∧
    ∃ n ∈ (Reading.ofText standard "(fun (x) (while x x) (if (x (begin 1 x)) (else (var y))))".toList).nodes,
      (∃ m before after fn, (mark standard false n).at? [3, 1, 1, 2] = some m ∧ m.returned = true ∧
        [3, 1, 1, 2] = before ++ after ∧ Evaluated standard n before fn ∧ TailOf standard fn after m.node) ∧
      ∃ m, (mark standard false n).at? [2, 2] = some m ∧ m.returned = false ∧
        ¬ (yields (formOf standard m.node) = true ∧ ∃ before after fn, [2, 2] = before ++ after ∧
          Evaluated standard n before fn ∧ TailOf standard fn after m.node) := by
  have hcode : (generate standard .initial
        (Reading.ofText standard "(fun (x) (while x x) (if (x (begin 1 x)) (else (var y))))".toList).nodes).1 =
      .ok "(function(x) \x7b while (x) \x7b x; \x7d;\n  if (x) \x7b \x7b 1;\n      return x; \x7d; \x7d\n  else \x7b var y; \x7d; \x7d);\n" := by
    cbv
  have hmarks : (Reading.ofText standard "(fun (x) (while x x) (if (x (begin 1 x)) (else (var y))))".toList).nodes.map
      (fun n => (((mark standard false n).at? [3, 1, 1, 2]).map returned, ((mark standard false n).at? [2, 2]).map returned)) =
        [(some true, some false)] := by
    cbv
  obtain ⟨n, hnodes, heq⟩ := List.map_eq_singleton_iff.1 hmarks
  have hn := hnodes ▸ List.mem_singleton_self n
  obtain ⟨hsequence, hloop⟩ := Prod.mk.inj heq
  obtain ⟨m, hm, hr⟩ := Option.map_eq_some_iff.1 hsequence
  obtain ⟨m', hm', hr'⟩ := Option.map_eq_some_iff.1 hloop
  have hiff := ((generate_returns (Prod.ext hcode rfl)).2 n hn).2
  obtain ⟨-, before, after, fn, hpath, hev, htail⟩ := (hiff _ m hm).1 hr
  refine ⟨hcode, n, hn, ⟨m, before, after, fn, hm, hr, hpath, hev, htail⟩, m', hm', hr', ?_⟩
  rw [← hiff _ m' hm', hr']
  exact Bool.false_ne_true

end Emit
end QuasiScript
