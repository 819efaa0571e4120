import QuasiScript.Proofs.Acceptance
import QuasiScript.Proofs.Phrases

/-!
# Every statement has its text in the code

Statements are the nodes of a program and the elements of blocks, in functions, loops and branches (`StatementAt`). The
text of a form is put together from the texts of what it evaluates, each of which is a part of it (`prints_element`,
`prints_unquoted`), so everything that is evaluated in an accepted node is printed in its text (`prints_of_evaluated`),
and every statement with a semicolon behind it (`partOf_print_of_statement`).
-/
namespace QuasiScript

namespace Text

def PartOf (s t : String) : Prop := s.toList <:+: t.toList

section PartOf
variable {s t u sep : String} {ss : List String}

theorem PartOf.trans (h : PartOf s t) (h' : PartOf t u) : PartOf s u := List.IsInfix.trans h h'

theorem partOf_append_left (s t : String) : PartOf s (s ++ t) := by
  rw [PartOf, String.toList_append]
  exact (List.prefix_append _ _).isInfix

theorem partOf_append_right (s t : String) : PartOf t (s ++ t) := by
  rw [PartOf, String.toList_append]
  exact (List.suffix_append _ _).isInfix

theorem partOf_between (s t u : String) : PartOf t (s ++ t ++ u) :=
  (partOf_append_right s t).trans (partOf_append_left _ u)

theorem partOf_intercalate : ∀ {ss : List String}, s ∈ ss → PartOf s (sep.intercalate ss)
  | [t], h => by
    rw [List.mem_singleton.1 h, String.intercalate_singleton]
    exact List.infix_rfl
  | t :: u :: ss, h => by
    rw [String.intercalate_cons_cons]
    rcases List.mem_cons.1 h with rfl | h
    · rw [String.append_assoc]
      exact partOf_append_left _ _
    · exact (partOf_intercalate h).trans (partOf_append_right _ _)

theorem partOf_join (h : s ∈ ss) : PartOf s (String.join ss) := by
  obtain ⟨before, after, rfl⟩ := List.append_of_mem h
  exact ⟨before.flatMap String.toList, after.flatMap String.toList, by simp⟩

end PartOf

/-- Each statement of a block is a part of it, together with the semicolon behind it. -/
theorem partOf_blockText {s : String} {ss : List String} (f : Frame) (prelude : Option String) (h : s ∈ ss) :
    PartOf (s ++ ";") (Emit.blockText f prelude ss) :=
  (partOf_intercalate (List.mem_map_of_mem (f := (· ++ ";")) h)).trans (partOf_between _ _ _)

end Text

namespace Marked
open Emit
open Text (PartOf partOf_append_left partOf_append_right partOf_between partOf_intercalate partOf_join partOf_blockText)

variable {d : Dialect}

/-! ## Statement positions -/

inductive Block (d : Dialect) : Node → List Nat → Node → Prop
  | sequence {es : List Node} {t : Token} {i : Nat} {e : Node} :
      formOf d (.list es t) = .sequence → 1 ≤ i → es[i]? = some e → Block d (.list es t) [i] e
  | body {es : List Node} {t : Token} {i : Nat} {e : Node} :
      formOf d (.list es t) ∈ [.lambda, .when, .whileLoop, .untilLoop] → 2 ≤ i → es[i]? = some e →
      Block d (.list es t) [i] e
  | forLoop {es : List Node} {t : Token} {i : Nat} {e : Node} :
      formOf d (.list es t) = .forLoop → 4 ≤ i → es[i]? = some e → Block d (.list es t) [i] e
  | clause {es cs : List Node} {t u : Token} {i j : Nat} {e : Node} :
      formOf d (.list es t) = .conditional → es[i]? = some (.list cs u) → 1 ≤ j → cs[j]? = some e →
      Block d (.list es t) [i, j] e

/-- **Statement positions**: the node itself, and the elements of the blocks of all forms that are evaluated in it. -/
inductive StatementAt (d : Dialect) (n : Node) : List Nat → Node → Prop
  | top : StatementAt d n [] n
  | block {before after : List Nat} {fn e : Node} : Evaluated d n before fn → Block d fn after e →
      StatementAt d n (before ++ after) e

/-! ## Marks on the way -/

theorem at?_append (m : Marked) (before after : List Nat) :
    m.at? (before ++ after) = (m.at? before).bind (·.at? after) := by
  induction before generalizing m with
  | nil => rfl
  | cons i before ih =>
    rw [List.cons_append, at?, at?]
    cases m.elements[i]? with
    | none => rfl
    | some e => exact ih e

/-- The elements of a form that evaluates them are marked, one by one. -/
theorem getElem?_elements_mark {es : List Node} {t : Token} {i : Nat} {e : Node}
    (hform : formOf d (.list es t) ∉ [.lambda, .conditional, .quote, .quasiquote]) (he : es[i]? = some e) (tail : Bool) :
    ∃ tail', (mark d tail (.list es t)).elements[i]? = some (mark d tail' e) := by
  rw [elements_mark]
  cases h : formOf d (.list es t) with
  | lambda | conditional | quote | quasiquote => simp [h] at hform
  | _ => exact ⟨_, by rw [getElem?_markFrom, he]; rfl⟩

theorem getElem?_elements_body {es : List Node} {t : Token} {i : Nat} {e : Node} (hform : formOf d (.list es t) = .lambda)
    (hi : 2 ≤ i) (he : es[i]? = some e) (tail : Bool) :
    ∃ tail', (mark d tail (.list es t)).elements[i]? = some (mark d tail' e) := by
  rw [elements_mark, hform]
  simp only [getElem?_markFunction, he, Option.map_some, if_neg (Nat.not_lt.2 hi)]
  exact ⟨_, rfl⟩

theorem at?_clause {es cs : List Node} {t u : Token} {i j : Nat} {e : Node}
    (hform : formOf d (.list es t) = .conditional) (hcs : es[i]? = some (.list cs u)) (he : cs[j]? = some e)
    (tail : Bool) : ∃ tail', (mark d tail (.list es t)).at? [i, j] = some (mark d tail' e) := by
  rw [at?, elements_mark, hform]
  simp only [getElem?_markClauses, hcs, Option.map_some, Option.bind_some, markClause, at?, elements, getElem?_markFrom,
    he]
  exact ⟨_, rfl⟩

theorem at?_of_unquoted {n e : Node} {path : List Nat} (h : Unquoted d n path e) :
    (markTemplate d n).at? path = some (mark d false e) := by
  induction h with
  | @here es t i e hform he =>
    have hmark : markTemplate d (.list es t) = .list false (markFrom d 0 false es) t := by
      rcases hform with hform | hform <;> rw [markTemplate, hform]
    rw [hmark, at?, elements, getElem?_markFrom, he]
    rfl
  | inside hu hs he _ ih =>
    rw [markTemplate_of_ne hu hs, at?, elements, getElem?_markTemplates, he]
    exact ih

theorem at?_of_evaluated {n e : Node} {path : List Nat} (h : Evaluated d n path e) :
    ∀ tail, ∃ tail', (mark d tail n).at? path = some (mark d tail' e) := by
  induction h with
  | here n => exact fun tail => ⟨tail, rfl⟩
  | element hform he _ ih =>
    intro tail
    obtain ⟨tail', hmark⟩ := getElem?_elements_mark hform he tail
    rw [at?, hmark]
    exact ih tail'
  | body hform hi he _ ih =>
    intro tail
    obtain ⟨tail', hmark⟩ := getElem?_elements_body hform hi he tail
    rw [at?, hmark]
    exact ih tail'
  | @clause es cs t u i j e m path hform hcs he _ ih =>
    intro tail
    obtain ⟨tail', hmark⟩ := at?_clause hform hcs he tail
    rw [show i :: j :: path = [i, j] ++ path from rfl, at?_append, hmark]
    exact ih tail'
  | @unquoted es t i e e' m inner path hform he hun _ ih =>
    intro tail
    rw [at?, elements_mark, hform]
    simp only [getElem?_markTemplates, he, Option.map_some, Option.bind_some, at?_append, at?_of_unquoted hun]
    exact ih false

theorem Block.exists_list {n e : Node} {path : List Nat} (h : Block d n path e) : ∃ es t, n = .list es t := by
  cases h <;> exact ⟨_, _, rfl⟩

/-- The elements of blocks are evaluated. -/
theorem Block.evaluated {n e : Node} {path : List Nat} (h : Block d n path e) : Evaluated d n path e := by
  cases h with
  | sequence hform hi he => exact .element (by simp [hform]) he (.here _)
  | @body es t i e hform hi he =>
    by_cases hlambda : formOf d (.list es t) = .lambda
    · exact .body hlambda hi he (.here _)
    · refine .element (fun h => ?_) he (.here _)
      simp only [List.mem_cons, List.not_mem_nil, or_false] at hform h
      rcases hform with hform | hform | hform | hform <;> simp [hform] at h hlambda
  | forLoop hform hi he => exact .element (by simp [hform]) he (.here _)
  | clause hform hcs hj he => exact .clause hform hcs he (.here _)

/-! ## Elements are printed in the form around them -/

theorem print_mem_printEach {m : Marked} {ms : List Marked} (h : m ∈ ms) (p : Site) : print d m p ∈ printEach d ms p := by
  induction ms with
  | nil => cases h
  | cons k ms ih =>
    rw [printEach]
    rcases List.mem_cons.1 h with rfl | h
    · exact List.mem_cons_self
    · exact List.mem_cons_of_mem _ (ih h)

def Prints (d : Dialect) (m : Marked) (s : String) : Prop := ∃ p, PartOf (print d m p) s

section Prints
variable {m : Marked} {ms : List Marked} {s t : String}

theorem Prints.of_part (h : Prints d m s) (hs : PartOf s t) : Prints d m t := by
  obtain ⟨p, hp⟩ := h
  exact ⟨p, hp.trans hs⟩

theorem prints_intercalate (sep : String) (h : m ∈ ms) (p : Site) : Prints d m (sep.intercalate (printEach d ms p)) :=
  ⟨p, partOf_intercalate (print_mem_printEach h p)⟩

/-- The text of a list stands behind `return`, if that is there. -/
theorem partOf_print_list (r : Bool) (es : List Marked) (t : Token) (p : Site) :
    ∃ q, PartOf (printList d es q) (print d (.list r es t) p) := by
  refine ⟨if r then p.under "return" else p, ?_⟩
  rw [print]
  exact partOf_append_right _ _

/-- Statements of a block, each with its semicolon. -/
theorem partOf_block (h : m ∈ ms) (f : Frame) (prelude : Option String) (p : Site) :
    PartOf (print d m p ++ ";") (blockText f prelude (printEach d ms p)) :=
  partOf_blockText f prelude (print_mem_printEach h p)

theorem prints_block (h : m ∈ ms) (f : Frame) (prelude : Option String) (p : Site) :
    Prints d m (blockText f prelude (printEach d ms p)) :=
  ⟨p, (partOf_append_left _ _).trans (partOf_block h f prelude p)⟩

end Prints

/-- All lists among declarators are printed. -/
theorem prints_declarators : ∀ {ms : List Marked} {p : Site} {r : Bool} {es : List Marked} {t : Token},
    .list r es t ∈ ms → ∃ s ∈ printDeclarators d ms p, Prints d (.list r es t) s
  | .list r' es' t' :: rest, p, r, es, t, h => by
    rw [printDeclarators]
    rcases List.mem_cons.1 h with heq | h
    · exact ⟨_, List.mem_cons_self, p, by rw [heq]; exact List.infix_rfl⟩
    · obtain ⟨s, hs, hprints⟩ := prints_declarators (p := p) h
      exact ⟨s, List.mem_cons_of_mem _ hs, hprints⟩
  | [.leaf r' v t'], p, r, es, t, h => by simp at h
  | .leaf r' v t' :: m :: rest, p, r, es, t, h => by
    replace h : .list r es t ∈ m :: rest := by simpa using h
    rw [printDeclarators]
    by_cases hm : isInitializer m.node = true
    · rw [if_pos hm]
      rcases List.mem_cons.1 h with rfl | h
      · exact ⟨_, List.mem_cons_self, p.under "=", partOf_append_right _ _⟩
      · obtain ⟨s, hs, hprints⟩ := prints_declarators (p := p) h
        exact ⟨s, List.mem_cons_of_mem _ hs, hprints⟩
    · rw [if_neg hm]
      obtain ⟨s, hs, hprints⟩ := prints_declarators (p := p) h
      exact ⟨s, List.mem_cons_of_mem _ hs, hprints⟩

theorem prints_entries : ∀ {args : List Node}, args.length % 2 = 0 → Entries d args →
    ∀ {p : Site} {r : Bool} {es : List Marked} {t : Token}, .list r es t ∈ markFrom d 0 false args →
      ∃ s ∈ printEntries d (markFrom d 0 false args) p, Prints d (.list r es t) s
  | [], _, _, _, _, _, _, h => by cases h
  | [_], heven, _, _, _, _, _, _ => by simp at heven
  | k :: n :: rest, heven, ⟨⟨v, u, hk⟩, _, hrest⟩, p, r, es, t, h => by
    subst hk
    have hmark : markFrom d 0 false (.leaf v u :: n :: rest) =
        .leaf false v u :: mark d false n :: markFrom d 0 false rest := by simp [markFrom_zero, mark]
    rw [hmark] at h ⊢
    rw [printEntries]
    rcases List.mem_cons.1 h with heq | h
    · cases heq
    · rcases List.mem_cons.1 h with heq | h
      · exact ⟨_, List.mem_cons_self, p, by rw [heq]; exact partOf_append_right _ _⟩
      · rw [List.length_cons, List.length_cons] at heven
        obtain ⟨s, hs, hprints⟩ := prints_entries (by omega) hrest (p := p) h
        exact ⟨s, List.mem_cons_of_mem _ hs, hprints⟩

theorem partOf_entries (f : Frame) {s : String} {ss : List String} (h : s ∈ ss) : PartOf s (objectText f ss) := by
  have hjoin : objectText f ss = String.join
      ["\x7b", f.deeper.newline, ("," ++ f.deeper.newline).intercalate ss, f.newline, "\x7d"] := by
    simp [objectText, String.append_assoc]
  have hpart : PartOf s (("," ++ f.deeper.newline).intercalate ss) := partOf_intercalate h
  rw [hjoin]
  exact hpart.trans (partOf_join (by simp))

theorem partOf_parenthesize (wanted : Bool) (s : String) : PartOf s (parenthesize wanted s) := by
  cases wanted with
  | false => exact List.infix_rfl
  | true => exact partOf_between "(" s ")"

theorem prints_guarded (lead role : String) {k test : Marked} {body : List Marked} (h : k ∈ test :: body) (p : Site) :
    Prints d k (printGuarded d lead role (test :: body) p) := by
  rw [printGuarded]
  rcases List.mem_cons.1 h with rfl | h
  · refine ⟨p.under role, (partOf_append_right lead _).trans ?_⟩
    rw [String.append_assoc]
    exact partOf_append_left _ _
  · exact (prints_block h _ _ _).of_part (partOf_append_right _ _)

theorem prints_for {r : Bool} {v : Value} {t : Token} {k lo hi : Marked} {body : List Marked} (h : k ∈ lo :: hi :: body)
    (p : Site) : Prints d k (printFor d (.leaf r v t :: lo :: hi :: body) p) := by
  have hjoin : printFor d (.leaf r v t :: lo :: hi :: body) p = String.join ["for (var ", Target.literal v, " = ",
      print d lo (p.under "="), "; ", Target.literal v, " <= ", print d hi (p.under "<="), "; ", Target.literal v, "++) ",
      blockText p.frame none (printEach d body (p.deeper.under "begin"))] := by
    simp [printFor_cons, String.append_assoc]
  rw [hjoin]
  rcases List.mem_cons.1 h with rfl | h
  · exact ⟨p.under "=", partOf_join (by simp)⟩
  · rcases List.mem_cons.1 h with rfl | h
    · exact ⟨p.under "<=", partOf_join (by simp)⟩
    · exact (prints_block h p.frame none (p.deeper.under "begin")).of_part (partOf_join (by simp))

theorem prints_operation (name target : String) {k : Marked} : ∀ {ms : List Marked}, k ∈ ms → ∀ p : Site,
    Prints d k (printOperation d name target ms p)
  | [m], h, p => by
    obtain rfl := List.mem_singleton.1 h
    rw [printOperation]
    exact ⟨p.under name, (partOf_append_right _ _).trans (partOf_parenthesize _ _)⟩
  | m :: m' :: ms, h, p => by
    exact (prints_intercalate _ h (p.under name)).of_part (partOf_parenthesize _ _)

/-- **Lists that an accepted form evaluates directly are printed in it.** -/
theorem prints_argument {name : String} {op : Token} {args : List Node} (hproper : Proper d args (d.form name))
    (hform : d.form name ∉ [.lambda, .conditional, .quote, .quasiquote]) {tail r : Bool} {es : List Marked} {t : Token}
    (h : .list r es t ∈ markArguments d (d.form name) tail args) (p : Site) :
    Prints d (.list r es t) (printList d (.leaf false (.symbol name) op :: markArguments d (d.form name) tail args) p) := by
  rw [printList]
  cases hname : d.form name with
  | lambda | conditional | quote | quasiquote => simp [hname] at hform
  | declaration =>
    rw [hname] at h
    obtain ⟨s, hs, hprints⟩ := prints_declarators (p := p.under "var") h
    exact (hprints.of_part (partOf_intercalate hs)).of_part (partOf_append_right _ _)
  | assignment =>
    rw [hname] at h
    exact prints_intercalate " = " h _
  | sequence =>
    rw [hname] at h
    exact prints_block h _ _ _
  | «when» | whileLoop | untilLoop =>
    rw [hname] at h hproper
    obtain ⟨test, b, body, rfl, -, -⟩ := hproper
    exact prints_guarded _ _ h p
  | array =>
    rw [hname] at h
    exact (prints_intercalate ", " h _).of_part (partOf_between _ _ _)
  | object =>
    rw [hname] at h hproper
    obtain ⟨s, hs, hprints⟩ := prints_entries hproper.1 hproper.2 (p := (p.under "object").deeper) h
    refine hprints.of_part (PartOf.trans ?_ (partOf_parenthesize _ _))
    change PartOf s (if (printEntries d (markFrom d 0 false args) _).isEmpty then _ else _)
    rw [if_neg (by simpa using List.ne_nil_of_mem hs)]
    exact (partOf_entries p.frame hs)
  | existence =>
    rw [hname] at h hproper
    obtain ⟨x, u, rfl⟩ := hproper
    simp [markArguments, markFrom, mark] at h
  | forLoop =>
    rw [hname] at h hproper
    obtain ⟨v, u, lo, hi, b, body, rfl, -, -, -⟩ := hproper
    rcases List.mem_cons.1 h with heq | h
    · cases heq
    · exact prints_for h p
  | unquote | unquoteSplicing =>
    rw [hname] at hproper
    exact hproper.elim
  | ordinary | unassigned _ =>
    rw [hname] at h
    simp only
    split
    · exact prints_operation _ _ h p
    · split
      · exact prints_operation _ _ h p
      · split
        · exact ⟨p.under name, (partOf_join (print_mem_printEach h _)).trans (partOf_append_right _ _)⟩
        · exact (prints_intercalate ", " h (p.under "call")).of_part (partOf_between _ _ _)

theorem prints_call {k : Marked} {r : Bool} {es args : List Marked} {t : Token} (h : k ∈ .list r es t :: args)
    (p : Site) :
    Prints d k (printList d (.list r es t :: args) p) := by
  have hjoin : printList d (.list r es t :: args) p = String.join ["(", print d (.list r es t) (p.under "call"), ")(",
      ", ".intercalate (printEach d args (p.under "call")), ")"] := by
    simp [printList, String.append_assoc]
  rw [hjoin]
  rcases List.mem_cons.1 h with rfl | h
  · exact ⟨p.under "call", partOf_join (by simp)⟩
  · exact (prints_intercalate ", " h (p.under "call")).of_part (partOf_join (by simp))

/-- A list that is evaluated directly under a form is printed in the text of the form. -/
theorem prints_element {es : List Node} {t : Token} (h : Accepts d (.list es t))
    (hform : formOf d (.list es t) ∉ [.lambda, .conditional, .quote, .quasiquote]) {tail r : Bool} {ms : List Marked}
    {u : Token} (hmem : .list r ms u ∈ (mark d tail (.list es t)).elements) (p : Site) :
    Prints d (.list r ms u) (print d (mark d tail (.list es t)) p) := by
  rcases h.head with ⟨es₁, t₁, args, rfl⟩ | ⟨name, op, args, rfl⟩
  · obtain ⟨r₁, ms₁, hmark⟩ := exists_mark_list (d := d) es₁ t₁ false
    rw [mark_cons, hmark] at hmem ⊢
    obtain ⟨q, hq⟩ := partOf_print_list (d := d) _ _ t p
    exact (prints_call hmem q).of_part hq
  · rw [mark_cons] at hmem ⊢
    obtain ⟨q, hq⟩ := partOf_print_list (d := d) _ _ t p
    refine Prints.of_part ?_ hq
    rcases List.mem_cons.1 hmem with heq | hmem
    · cases heq
    · exact prints_argument h.proper hform hmem q

/-! ## Blocks -/

def clauseText (d : Dialect) (tail : Bool) (test : Node) (body : List Node) (p : Site) : String :=
  (if test.symbol? = some "else" then "" else "if (" ++ print d (mark d false test) (p.under "if") ++ ") ") ++
    blockText p.frame none (printEach d (markFrom d 0 tail body) (p.deeper.under "begin"))

theorem clauseText_mem (tail : Bool) (p : Site) : ∀ {args : List Node}, (∀ n ∈ args, Clause d n) →
    ∀ {test : Node} {body : List Node} {u : Token}, .list (test :: body) u ∈ args →
      clauseText d tail test body p ∈ printClauses d (markClauses d tail args) p
  | [], _, _, _, _, h => by cases h
  | n :: rest, hall, test, body, u, h => by
    obtain ⟨hn, hrest⟩ := List.forall_mem_cons.1 hall
    obtain ⟨test', b, body', t', rfl, -, -⟩ := hn
    have hprint : printClauses d (markClauses d tail (.list (test' :: b :: body') t' :: rest)) p =
        clauseText d tail test' (b :: body') p :: printClauses d (markClauses d tail rest) p := by
      rw [markClauses, markFrom_succ, printClauses, node_mark]
      rfl
    rw [hprint]
    rcases List.mem_cons.1 h with heq | h
    · cases heq
      exact List.mem_cons_self
    · exact List.mem_cons_of_mem _ (clauseText_mem tail p hrest h)

/-- An accepted conditional has each clause in its text. -/
theorem partOf_clauseText {name : String} {op t u : Token} {args body : List Node} {test : Node}
    (h : Accepts d (.list (.leaf (.symbol name) op :: args) t)) (hname : d.form name = .conditional)
    (hmem : .list (test :: body) u ∈ args) (tail : Bool) (p : Site) :
    PartOf (clauseText d tail test body p) (print d (mark d tail (.list (.leaf (.symbol name) op :: args) t)) p) := by
  have hproper := h.proper
  rw [hname] at hproper
  rw [print_mark_form (by simp [hname, yields]), printList, hname]
  exact partOf_intercalate (clauseText_mem tail p hproper.2 hmem)

theorem mem_markFrom_of_succ {ns : List Node} {n : Node} {k i : Nat} {tail : Bool} {m : Marked} (hi : 1 ≤ i)
    (h : (markFrom d k tail (n :: ns))[i]? = some m) : m ∈ markFrom d (k - 1) tail ns := by
  obtain ⟨j, rfl⟩ := Nat.exists_eq_add_of_le hi
  rw [markFrom, Nat.add_comm, List.getElem?_cons_succ] at h
  exact List.mem_of_getElem? h

def InBlock (form : Form) (j : Nat) : Prop :=
  form = .sequence ∨ form ∈ [.lambda, .when, .whileLoop, .untilLoop] ∧ 1 ≤ j ∨ form = .forLoop ∧ 3 ≤ j

theorem partOf_printList_of_inBlock {name : String} {op : Token} {args : List Node}
    (hproper : Proper d args (d.form name)) {tail : Bool} {j : Nat} {k : Marked} (hj : InBlock (d.form name) j)
    (hk : (markArguments d (d.form name) tail args)[j]? = some k) (p : Site) :
    PartOf (print d k (p.deeper.under "begin") ++ ";")
      (printList d (.leaf false (.symbol name) op :: markArguments d (d.form name) tail args) p) := by
  have hguarded : ∀ {lead role : String} {test b : Node} {body : List Node} {i : Nat} {tail : Bool}, 1 ≤ j →
      (markFrom d i tail (test :: b :: body))[j]? = some k → PartOf (print d k (p.deeper.under "begin") ++ ";")
        (printGuarded d lead role (markFrom d i tail (test :: b :: body)) p) := by
    intro lead role test b body i tail hj hk
    exact (partOf_block (mem_markFrom_of_succ hj hk) _ _ _).trans (partOf_append_right _ _)
  rw [printList]
  rcases hj with hname | ⟨hname, hj⟩ | ⟨hname, hj⟩
  · rw [hname] at hk ⊢
    exact partOf_block (List.mem_of_getElem? hk) _ _ _
  · simp only [List.mem_cons, List.not_mem_nil, or_false] at hname
    rcases hname with hname | hname | hname | hname
    · rw [hname] at hproper hk ⊢
      obtain ⟨ps, t, b, body, rfl, -⟩ := hproper
      have hmem : k ∈ markFrom d 0 true (b :: body) := by
        obtain ⟨i, rfl⟩ := Nat.exists_eq_add_of_le hj
        rw [markArguments, markLambda, Nat.add_comm, List.getElem?_cons_succ] at hk
        exact List.mem_of_getElem? hk
      exact ((partOf_block hmem _ _ _).trans (partOf_append_right _ _)).trans (partOf_parenthesize _ _)
    all_goals
      rw [hname] at hproper hk ⊢
      obtain ⟨test, b, body, rfl, -, -⟩ := hproper
      exact hguarded hj hk
  · rw [hname] at hproper hk ⊢
    obtain ⟨v, t, lo, hi, b, body, rfl, -, -, -⟩ := hproper
    have hmem : k ∈ markFrom d 0 false (b :: body) := by
      obtain ⟨i, rfl⟩ := Nat.exists_eq_add_of_le hj
      rw [Nat.add_comm] at hk
      exact List.mem_of_getElem? (i := i) hk
    exact (partOf_block hmem _ _ _).trans (partOf_append_right _ _)

theorem getElem?_of_at? {r : Bool} {x k : Marked} {ms : List Marked} {t : Token} {i : Nat} (hi : 1 ≤ i)
    (h : (Marked.list r (x :: ms) t).at? [i] = some k) : ms[i - 1]? = some k := by
  obtain ⟨j, rfl⟩ := Nat.exists_eq_add_of_le hi
  rw [at?, elements, Nat.add_comm, List.getElem?_cons_succ] at h
  simpa [at?] using h

/-- **The elements of the blocks of an accepted form are statements in its text**, each with a semicolon behind it. -/
theorem partOf_print_of_block {n e : Node} {path : List Nat} (hblock : Block d n path e) (h : Accepts d n) {tail : Bool}
    {k : Marked} (hk : (mark d tail n).at? path = some k) (p : Site) :
    ∃ depth, PartOf (print d k ⟨.form "begin", depth⟩ ++ ";") (print d (mark d tail n) p) := by
  have helement : ∀ {es : List Node} {t : Token} {i : Nat} {form : Form}, formOf d (.list es t) = form →
      form ≠ .ordinary → 1 ≤ i → InBlock form (i - 1) → Accepts d (.list es t) →
      (mark d tail (.list es t)).at? [i] = some k →
      ∃ depth, PartOf (print d k ⟨.form "begin", depth⟩ ++ ";") (print d (mark d tail (.list es t)) p) := by
    intro es t i form hform hne hi hin h hk
    obtain ⟨name, op, args, rfl, rfl⟩ := h.named hform hne
    rw [mark_cons] at hk ⊢
    obtain ⟨q, hq⟩ := partOf_print_list (d := d) _ _ t p
    exact ⟨q.depth + 1, (partOf_printList_of_inBlock h.proper hin (getElem?_of_at? hi hk) q).trans hq⟩
  cases hblock with
  | sequence hform hi he => exact helement hform (by decide) hi (.inl rfl) h hk
  | @body es t i e hform hi he =>
    refine helement rfl (fun h => ?_) (by omega) (.inr (.inl ⟨hform, by omega⟩)) h hk
    rw [h] at hform
    exact absurd hform (by decide)
  | forLoop hform hi he => exact helement hform (by decide) (by omega) (.inr (.inr ⟨rfl, by omega⟩)) h hk
  | @clause es cs t u i j e hform hcs hj he =>
    obtain ⟨name, op, args, rfl, hname⟩ := h.named hform (by decide)
    have hmem : .list cs u ∈ args := by simpa using List.mem_of_getElem? hcs
    rcases cs with _ | ⟨test, body⟩
    · cases he
    have hin : k ∈ markFrom d 0 tail body := by
      rw [at?, elements_mark, hform] at hk
      simp only [getElem?_markClauses, hcs, Option.map_some, Option.bind_some, markClause, at?, elements] at hk
      exact mem_markFrom_of_succ (k := 1) hj (by simpa using hk)
    refine ⟨p.depth + 1, PartOf.trans ?_ (partOf_clauseText h hname hmem tail p)⟩
    exact (partOf_block hin _ _ _).trans (partOf_append_right _ _)

/-! ## Templates -/

theorem printDatum_mem_printData {m : Marked} {ms : List Marked} (quasi : Bool) (h : m ∈ ms) (p : Site) :
    printDatum d quasi m p ∈ printData d quasi ms p := by
  induction ms with
  | nil => cases h
  | cons k ms ih =>
    rw [printData]
    rcases List.mem_cons.1 h with rfl | h
    · exact List.mem_cons_self
    · exact List.mem_cons_of_mem _ (ih h)

def spliceText (d : Dialect) (p : Site) : Marked → String
  | .leaf _ v _ => "[" ++ datumLeaf v ++ "]"
  | .list r es t =>
    if isSpliced d (.list (nodes es) t) then printInserted d "unquote-splicing" es p
    else "[" ++ printDatum d true (.list r es t) p ++ "]"

theorem printSplices_eq_map (p : Site) : ∀ ms : List Marked, printSplices d ms p = ms.map (spliceText d p)
  | [] => rfl
  | .leaf _ _ _ :: ms => by rw [printSplices, printSplices_eq_map p ms]; rfl
  | .list _ _ _ :: ms => by rw [printSplices, printSplices_eq_map p ms]; rfl

/-- What a list inserts is printed there, if it is a list itself. -/
theorem prints_insertion {form : Form} (hform : form ≠ .ordinary) {es es' : List Node} {t t' : Token}
    (h : Insertion d form (.list es t)) (hmem : .list es' t' ∈ es) (role : String) (p : Site) :
    Prints d (mark d false (.list es' t')) (printInserted d role (markFrom d 0 false es) p) := by
  obtain ⟨u, e, w, heq, hf, -⟩ := h
  obtain ⟨rfl, rfl⟩ := Node.list.inj heq
  obtain ⟨v, x, rfl⟩ := exists_leaf_of_formOf (d := d) (by rw [hf]; exact hform)
  obtain rfl : .list es' t' = e := by simpa using hmem
  exact ⟨p.under role, List.infix_rfl⟩

theorem spliceText_of_not_spliced {es : List Node} {t : Token} (h : isSpliced d (.list es t) = false) (p : Site) :
    spliceText d p (markTemplate d (.list es t)) = "[" ++ printDatum d true (markTemplate d (.list es t)) p ++ "]" := by
  obtain ⟨ms, hmark⟩ : ∃ ms, markTemplate d (.list es t) = .list false ms t := ⟨_, rfl⟩
  have hnode : Node.list (nodes ms) t = .list es t := by
    have := node_markTemplate (d := d) (.list es t)
    rwa [hmark, node] at this
  rw [hmark, spliceText, hnode, h, if_neg (by decide)]

theorem prints_unquoted {n e : Node} {path : List Nat} (hun : Unquoted d n path e) : ∀ es t, e = .list es t → ∀ p,
    (Template d n → Prints d (mark d false e) (printDatum d true (markTemplate d n) p)) ∧
      (Insertion d .unquoteSplicing n → Prints d (mark d false e) (spliceText d p (markTemplate d n))) := by
  induction hun with
  | @here es t i e hform he =>
    rintro es' t' rfl p
    have hmem := List.mem_of_getElem? he
    have hmark : markTemplate d (.list es t) = .list false (markFrom d 0 false es) t := by
      rcases hform with hform | hform <;> rw [markTemplate, hform]
    refine ⟨fun h => ?_, fun h => ?_⟩
    · cases h with
      | list hu hs => exact (hform.elim hu hs).elim
      | inserted h =>
        obtain ⟨_, _, _, _, hf, _⟩ := id h
        rw [hmark, printDatum, nodes_markFrom, if_pos rfl, hf]
        exact prints_insertion (by decide) h hmem _ p
    · obtain ⟨_, _, _, _, hf, _⟩ := id h
      rw [hmark, spliceText, nodes_markFrom, if_pos (by simp [isSpliced, hf])]
      exact prints_insertion (by decide) h hmem _ p
  | @inside es t i e m path hu hs he hun ih =>
    rintro es' t' rfl p
    refine ⟨fun h => ?_, fun h => ?_⟩
    · cases h with
      | inserted h =>
        obtain ⟨_, _, _, _, hf, _⟩ := h
        exact absurd hf hu
      | list _ _ htemplates hsplices =>
        have hin := List.mem_of_getElem? he
        have hmem : markTemplate d e ∈ markTemplates d es :=
          List.mem_of_getElem? (i := i) (by rw [getElem?_markTemplates, he]; rfl)
        obtain ⟨htemplate, hinsertion⟩ := ih es' t' rfl p
        rw [markTemplate_of_ne hu hs, printDatum_of_ne (by simpa using hu) (by simpa using hs), nodes_markTemplates]
        obtain ⟨es₁, t₁, rfl⟩ : ∃ es₁ t₁, e = .list es₁ t₁ := by
          cases hun <;> exact ⟨_, _, rfl⟩
        by_cases hany : es.any (isSpliced d) = true
        · rw [if_pos hany, printSplices_eq_map]
          refine Prints.of_part ?_ (((partOf_intercalate (List.mem_map_of_mem hmem))).trans (partOf_between _ _ _))
          cases hspliced : isSpliced d (.list es₁ t₁) with
          | true => exact hinsertion (hsplices _ hin hspliced)
          | false =>
            rw [spliceText_of_not_spliced hspliced]
            exact (htemplate (htemplates _ hin hspliced)).of_part (partOf_between _ _ _)
        · rw [if_neg hany]
          have hspliced : isSpliced d (.list es₁ t₁) = false := by
            by_contra h
            exact hany (List.any_eq_true.2 ⟨_, hin, by simpa using h⟩)
          exact (htemplate (htemplates _ hin hspliced)).of_part
            ((partOf_intercalate (printDatum_mem_printData true hmem p)).trans (partOf_between _ _ _))
    · obtain ⟨_, _, _, _, hf, _⟩ := h
      exact absurd hf hs

/-! ## All that is evaluated -/

/-- **Every list that is evaluated in an accepted node is printed in its text.** -/
theorem prints_of_evaluated {n e : Node} {path : List Nat} (hev : Evaluated d n path e) :
    Accepts d n → ∀ es t, e = .list es t → ∀ tail k p, (mark d tail n).at? path = some k →
      Prints d k (print d (mark d tail n) p) := by
  -- what is printed further in is printed in the text of the next form inward, wherever that is printed
  have hthrough : ∀ {m k : Marked} {s : String}, Prints d m s → (∀ q, Prints d k (print d m q)) → Prints d k s := by
    rintro m k s ⟨q, hq⟩ hk
    exact (hk q).of_part hq
  induction hev with
  | here n =>
    rintro - es t - tail k p hk
    cases hk
    exact ⟨p, List.infix_rfl⟩
  | @element es t i e m path hform he hev ih =>
    rintro h es' t' rfl tail k p hk
    obtain ⟨es₁, t₁, rfl⟩ := exists_list_of_evaluated hev
    obtain ⟨tail', hmark⟩ := getElem?_elements_mark hform he tail
    rw [at?, hmark] at hk
    refine hthrough ?_ fun q => ih (h.element hform (List.mem_of_getElem? he)) _ _ rfl tail' k q hk
    obtain ⟨r, ms, hlist⟩ := exists_mark_list (d := d) es₁ t₁ tail'
    rw [hlist] at hmark ⊢
    exact prints_element h hform (List.mem_of_getElem? hmark) p
  | @body es t i e m path hform hi he hev ih =>
    rintro h es' t' rfl tail k p hk
    obtain ⟨es₁, t₁, rfl⟩ := exists_list_of_evaluated hev
    obtain ⟨tail', hmark⟩ := getElem?_elements_body hform hi he tail
    rw [at?, hmark] at hk
    have haccepts := Accepts.of_evaluated (.body hform hi he (.here _)) h _ _ rfl
    refine hthrough ?_ fun q => ih haccepts _ _ rfl tail' k q hk
    obtain ⟨depth, hpart⟩ := partOf_print_of_block (.body (by simp [hform]) hi he) h (by rw [at?, hmark]; rfl) p
    exact ⟨_, (partOf_append_left _ _).trans hpart⟩
  | @clause es cs t u i j e m path hform hcs he hev ih =>
    rintro h es' t' rfl tail k p hk
    obtain ⟨es₁, t₁, rfl⟩ := exists_list_of_evaluated hev
    obtain ⟨tail', hmark⟩ := at?_clause hform hcs he tail
    rw [show i :: j :: path = [i, j] ++ path from rfl, at?_append, hmark] at hk
    have haccepts := Accepts.of_evaluated (.clause hform hcs he (.here _)) h _ _ rfl
    refine hthrough ?_ fun q => ih haccepts _ _ rfl tail' k q hk
    by_cases hj : 1 ≤ j
    · obtain ⟨depth, hpart⟩ := partOf_print_of_block (.clause hform hcs hj he) h hmark p
      exact ⟨_, (partOf_append_left _ _).trans hpart⟩
    · -- a list that is the test of its clause
      obtain rfl : j = 0 := by omega
      obtain ⟨name, op, args, rfl, hname⟩ := h.named hform (by decide)
      rcases cs with _ | ⟨test, body⟩
      · cases he
      obtain rfl : test = .list es₁ t₁ := by simpa using he
      have hmem : .list (.list es₁ t₁ :: body) u ∈ args := by simpa using List.mem_of_getElem? hcs
      have htest : mark d tail' (.list es₁ t₁) = mark d false (.list es₁ t₁) := by
        rw [at?, elements_mark, hform] at hmark
        simp only [getElem?_markClauses, hcs, Option.map_some, Option.bind_some, markClause, at?, elements, markFrom_succ,
          List.getElem?_cons_zero, Option.some.injEq] at hmark
        exact hmark.symm
      rw [htest]
      refine ⟨p.under "if", PartOf.trans ?_ (partOf_clauseText h hname hmem tail p)⟩
      exact (partOf_between "if (" _ ") ").trans (partOf_append_left _ _)
  | @unquoted es t i e e' m inner path hform he hun hev ih =>
    rintro h es' t' rfl tail k p hk
    obtain ⟨es₁, t₁, rfl⟩ := exists_list_of_evaluated hev
    have haccepts := Accepts.of_evaluated (.unquoted hform he hun (.here _)) h _ _ rfl
    rw [at?, elements_mark, hform] at hk
    simp only [getElem?_markTemplates, he, Option.map_some, Option.bind_some, at?_append, at?_of_unquoted hun] at hk
    refine hthrough ?_ fun q => ih haccepts _ _ rfl false k q hk
    obtain ⟨name, op, args, rfl, hname⟩ := h.named hform (by decide)
    have hproper := h.proper
    rw [hname] at hproper
    obtain ⟨n, rfl, hn⟩ := hproper
    rcases List.mem_pair.1 (List.mem_of_getElem? he) with rfl | rfl
    · cases hun
    · rw [mark_cons, hform]
      obtain ⟨q, hq⟩ := partOf_print_list (d := d) _ (mark d false (.leaf (.symbol name) op) :: markTemplates d [e]) t p
      refine Prints.of_part ?_ hq
      change Prints d _ (printList d (.leaf false (.symbol name) op :: markTemplates d [e]) q)
      rw [printList, hname]
      exact (prints_unquoted hun _ _ rfl q).1 hn

/-- A statement in a block of an accepted node is a part of its text, with the semicolon behind it. -/
theorem partOf_print_of_statement {n fn e : Node} {before after : List Nat} (h : Accepts d n)
    (hev : Evaluated d n before fn) (hblock : Block d fn after e) {tail : Bool} {k : Marked}
    (hk : (mark d tail n).at? (before ++ after) = some k) (p : Site) :
    ∃ depth, PartOf (print d k ⟨.form "begin", depth⟩ ++ ";") (print d (mark d tail n) p) := by
  obtain ⟨es, t, rfl⟩ := hblock.exists_list
  obtain ⟨tail', hfn⟩ := at?_of_evaluated hev tail
  rw [at?_append, hfn] at hk
  obtain ⟨q, hq⟩ := prints_of_evaluated hev h es t rfl tail _ p hfn
  obtain ⟨depth, hpart⟩ := partOf_print_of_block hblock (h.of_evaluated hev es t rfl) hk q
  exact ⟨depth, hpart.trans hq⟩

end Marked
end QuasiScript
