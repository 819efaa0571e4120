import QuasiScript.Proofs.CompileFaults
import QuasiScript.Proofs.Nesting
import QuasiScript.Proofs.TargetValues

/-!
# Properties of object literals

An object literal of the target is read back here without reference to how it is emitted (`properties?`): between its
braces stand properties with commas between them, and a property is a key, a colon and a value. A key is a string
literal, or it is bare and denotes itself if it is an identifier name (`PropertyKey.name?`). The entries of an object
are emitted exactly if its keys are atoms that denote different properties and its values are emitted one after the
other (`exec_entries_ok_iff`), and the literal reads back as these keys and values (`object_properties`).

A key is written bare if it consists of letters, digits, `_` and `$`. This is too much by one letter, which the target
keeps for patterns: a key with a vertical tilde is bare and yet no identifier name
(`Target.Alphabet.isIdentifierName_iff`).
-/
namespace QuasiScript
open Dialect (standard)

namespace Target
open Brackets (Begins Operand pieces pieces_append pieces_intercalate newline mem_newline scanWith_newline)

/-! ## Reading an object literal -/

inductive PropertyKey where
  | bare (text : String)
  | quoted (contents : String)
deriving DecidableEq

/-- The property that a key denotes. What is bare denotes itself, if it is an identifier name. -/
def PropertyKey.name? (A : Alphabet) : PropertyKey → Option String
  | .bare s => if A.isIdentifierName s.toList then some s else none
  | .quoted s => some s

def dropBlanks (cs : List Char) : List Char := cs.dropWhile fun c => c == ' ' || c == '\n'

def valueOf? : List Char → Option String
  | ':' :: cs => some (String.ofList (dropBlanks cs))
  | _ => none

/-- A key, which is a string literal or goes up to the colon, and the value behind it. -/
def property? : List Char → Option (PropertyKey × String)
  | [] => none
  | c :: cs =>
    if c = '"' then (readString cs).bind fun p => (valueOf? p.2).map (Prod.mk (.quoted (String.ofList p.1)))
    else (valueOf? ((c :: cs).dropWhile (· != ':'))).map
      (Prod.mk (.bare (String.ofList ((c :: cs).takeWhile (· != ':')))))

def beforeLastLine? (cs : List Char) : Option (List Char) :=
  match cs.reverse.dropWhile (· == ' ') with
  | '\n' :: before => some before.reverse
  | _ => none

/-- **The keys and values of an object literal**, in order. -/
def properties? (text : String) : Option (List (PropertyKey × String)) :=
  (between? ['\x7b'] '\x7d' text.toList).bind fun body =>
    if body = [] then some []
    else ((beforeLastLine? body).bind (pieces ⟨.code, []⟩)).bind (List.mapM fun cs => property? (dropBlanks cs))

/-- The text is one property, with no comma outside of all brackets. -/
structure IsEntry (e : String) (p : PropertyKey × String) : Prop where
  operand : Operand e
  reads : property? e.toList = some p

theorem dropBlanks_of_begins {s : String} (h : Begins s) : dropBlanks s.toList = s.toList := by
  obtain ⟨c, hc, hne⟩ := h
  simp only [List.mem_cons, List.not_mem_nil, or_false, not_or] at hne
  rw [← List.cons_head?_tail hc]
  exact List.dropWhile_cons_of_neg (by simp [hne])

theorem dropBlanks_newline (k : Nat) (cs : List Char) : dropBlanks ((newline k).toList ++ cs) = dropBlanks cs := by
  refine List.dropWhile_append_of_pos fun c hc => ?_
  have hblank : ∀ c ∈ ['\n', ' '], (c == ' ' || c == '\n') = true := by decide
  exact hblank c (mem_newline hc)

theorem valueOf?_colon {code : String} (h : Begins code) : valueOf? (": " ++ code).toList = some code := by
  have hblank : dropBlanks (' ' :: code.toList) = dropBlanks code.toList := rfl
  rw [String.toList_append]
  show some (String.ofList (dropBlanks (' ' :: code.toList))) = some code
  rw [hblank, dropBlanks_of_begins h, String.ofList_toList]

theorem property?_quote (s : String) {code : String} (h : Begins code) :
    property? (quote s ++ ": " ++ code).toList = some (.quoted s, code) := by
  have hcat : (quote s ++ ": " ++ code).toList =
      '"' :: (s.toList.flatMap escape ++ '"' :: (": " ++ code).toList) := by
    simp [quote, String.append_assoc]
  rw [hcat, property?, if_pos rfl, readString_flatMap_escape, Option.bind_some, valueOf?_colon h,
    String.ofList_toList]
  rfl

theorem property?_bare {s code : String} (hne : s ≠ "") (hs : ∀ c ∈ s.toList, c ≠ '"' ∧ c ≠ ':') (h : Begins code) :
    property? (s ++ ": " ++ code).toList = some (.bare s, code) := by
  have hcat : (s ++ ": " ++ code).toList = s.toList ++ (": " ++ code).toList := by simp [String.append_assoc]
  have hkey : ∀ c ∈ s.toList, (c != ':') = true := fun c hc => by simpa using (hs c hc).2
  obtain ⟨c, cs, hcs⟩ := List.exists_cons_of_ne_nil fun hnil => hne (String.toList_eq_nil_iff.1 hnil)
  have hstop : ((": " ++ code).toList.takeWhile (· != ':')) = [] ∧
      ((": " ++ code).toList.dropWhile (· != ':')) = (": " ++ code).toList := by
    simp
  rw [hcat]
  have hproperty : property? (s.toList ++ (": " ++ code).toList) =
      (valueOf? ((s.toList ++ (": " ++ code).toList).dropWhile (· != ':'))).map
        (Prod.mk (.bare (String.ofList ((s.toList ++ (": " ++ code).toList).takeWhile (· != ':'))))) := by
    rw [hcs, List.cons_append, property?, if_neg (hs c (by simp [hcs])).1]
  rw [hproperty, List.dropWhile_append_of_pos hkey, List.takeWhile_append_of_pos hkey, hstop.1, hstop.2,
    valueOf?_colon h, List.append_nil, String.ofList_toList]
  rfl

theorem beforeLastLine?_newline (cs : List Char) (k : Nat) :
    beforeLastLine? (cs ++ (newline k).toList) = some cs := by
  have hreverse : (cs ++ (newline k).toList).reverse = List.replicate (2 * k) ' ' ++ '\n' :: cs.reverse := by
    simp [newline, Text.spaces]
  have hdrop : (List.replicate (2 * k) ' ' ++ '\n' :: cs.reverse).dropWhile (· == ' ') = '\n' :: cs.reverse := by
    rw [List.dropWhile_append_of_pos (by simp)]
    rfl
  simp only [beforeLastLine?, hreverse, hdrop, List.reverse_reverse]

/-- Entries on lines of their own are read one by one. -/
theorem mapM_property? (k : Nat) {es : List String} {ps : List (PropertyKey × String)}
    (h : List.Forall₂ IsEntry es ps) :
    (es.map fun e => (newline k).toList ++ e.toList).mapM (fun cs => property? (dropBlanks cs)) = some ps := by
  induction h with
  | nil => rfl
  | cons he _ ih =>
    rw [List.map_cons, List.mapM_cons, ih, dropBlanks_newline, dropBlanks_of_begins he.operand.begins, he.reads]
    rfl

/-- **An object literal is read back as its entries.** -/
theorem properties?_objectText (f : Frame) {es : List String} {ps : List (PropertyKey × String)}
    (h : List.Forall₂ IsEntry es ps) (hne : es ≠ []) : properties? (Emit.objectText f es) = some ps := by
  obtain ⟨e, es, rfl⟩ := List.exists_cons_of_ne_nil hne
  have hoperand : ∀ e' ∈ e :: es, Operand e' := by
    intro e' he'
    obtain ⟨i, hi, rfl⟩ := List.getElem_of_mem he'
    exact (h.get hi (h.length_eq ▸ hi)).operand
  let lines := (newline (f.depth + 1)).toList ++ (("," ++ newline (f.depth + 1)).intercalate (e :: es)).toList
  have hcat : (Emit.objectText f (e :: es)).toList = ['\x7b'] ++ (lines ++ (newline f.depth).toList) ++ ['\x7d'] := by
    simp [Emit.objectText, lines, newline, Frame.newline, Frame.deeper]
  have hbody : lines ++ (newline f.depth).toList ≠ [] := by simp [newline]
  have hpieces : pieces ⟨.code, []⟩ lines =
      some ((e :: es).map fun e' => (newline (f.depth + 1)).toList ++ e'.toList) := by
    rw [pieces_append _ (scanWith_newline (f.depth + 1)),
      pieces_intercalate _ (scanWith_newline (f.depth + 1)) e es hoperand]
    rfl
  rw [properties?, hcat, between?_append, Option.bind_some, if_neg hbody, beforeLastLine?_newline, Option.bind_some,
    hpieces, Option.bind_some, mapM_property? (f.depth + 1) h]

theorem properties?_empty : properties? "\x7b\x7d" = some [] := by rfl

end Target

/-! ## Keys -/

def Value.isUnsigned : Value → Bool
  | .number text _ => text.toList.head? != some '-' && text.toList.head? != some '+'
  | _ => false

/-- The characters of an atom are not those that a key ends with. -/
theorem Value.IsAtom.plain {v : Value} {text : String} (h : v.IsAtom text) : ∀ c ∈ text.toList, c ≠ '"' ∧ c ≠ ':' := by
  intro c hc
  have hnot := Cursor.isAtomChar_standard.1 (h.2.1 c hc)
  constructor
  · rintro rfl
    exact hnot (by decide)
  · rintro rfl
    exact hnot (by decide)

namespace Emit
open Target (Alphabet PropertyKey IsEntry properties? verticalTilde)
open Brackets (Begins Operand Phrase phrase_key scanWith_code)

/-- **How a key is written.** Unsigned numbers stand as they are in the source. Every other key denotes its property,
unless it is bare and has a vertical tilde in it; bare keys are not reserved, and identifier names of every alphabet with
the same exception. -/
structure KeyFor (v : Value) (key : PropertyKey) : Prop where
  number : ∀ text x, v = .number text x → v.isUnsigned = true → key = .bare text
  denotes : v.isUnsigned = false → ∀ A : Alphabet,
    (key.name? A = some v.propertyName ↔ ∀ s, key = .bare s → verticalTilde ∉ s.toList)
  bare : v.isUnsigned = false → ∀ s, key = .bare s → s = v.propertyName ∧ standard.isReserved s = false ∧
    ∀ A : Alphabet, (A.isIdentifierName s.toList = true ↔ verticalTilde ∉ s.toList)

theorem keyFor_quoted {v : Value} (h : v.isUnsigned = false) : KeyFor v (.quoted v.propertyName) where
  number text x _ hunsigned := by
    rw [h] at hunsigned
    cases hunsigned
  denotes _ A := by simp [PropertyKey.name?]
  bare _ s hs := by cases hs

theorem keyFor_bare {name : String} (h : Target.isIdentifier name = true)
    (hreserved : standard.isReserved name = false) : KeyFor (.symbol name) (.bare name) where
  number text x hv := by cases hv
  denotes _ A := by
    simp only [PropertyKey.name?, Value.propertyName, PropertyKey.bare.injEq, forall_eq']
    rw [← A.isIdentifierName_iff h]
    by_cases hname : A.isIdentifierName name.toList = true <;> simp [hname]
  bare _ s hs := by
    cases hs
    exact ⟨rfl, hreserved, fun A => A.isIdentifierName_iff h⟩

theorem keyFor_number {text : String} {x : Double} (h : (Value.number text x).isUnsigned = true) :
    KeyFor (.number text x) (.bare text) where
  number text' x' hv _ := by
    cases hv
    rfl
  denotes hsigned := by
    rw [h] at hsigned
    cases hsigned
  bare hsigned := by
    rw [h] at hsigned
    cases hsigned

/-- **An entry is read back as its key and its value.** -/
theorem exists_isEntry {v : Value} {k : Nat} {code : String} (hv : v.Readable) (hcode : Phrase k false code) :
    ∃ key, IsEntry ((keyOf standard v).text ++ ": " ++ code) (key, code) ∧ KeyFor v key := by
  have hphrase : Phrase k false ((keyOf standard v).text ++ ": " ++ code) :=
    ((phrase_key hv).append (.plain (by decide))).append hcode.code
  have hoperand : Operand ((keyOf standard v).text ++ ": " ++ code) :=
    ⟨hphrase.begins, scanWith_code hphrase.code fun hcommas => by cases hcommas⟩
  have hquoted : (keyOf standard v).text = Target.quote v.propertyName → v.isUnsigned = false →
      ∃ key, IsEntry ((keyOf standard v).text ++ ": " ++ code) (key, code) ∧ KeyFor v key := by
    intro htext hsigned
    refine ⟨_, ⟨hoperand, ?_⟩, keyFor_quoted hsigned⟩
    rw [htext]
    exact Target.property?_quote _ hcode.begins
  have hbare : ∀ text, (keyOf standard v).text = text → v.IsAtom text →
      IsEntry ((keyOf standard v).text ++ ": " ++ code) (.bare text, code) := by
    intro text htext hatom
    refine ⟨hoperand, ?_⟩
    rw [htext]
    exact Target.property?_bare hatom.1 hatom.plain hcode.begins
  cases v with
  | symbol name =>
    by_cases hname : (Target.isIdentifier name && !standard.isReserved name) = true
    · have htext : (keyOf standard (.symbol name)).text = name := if_pos hname
      obtain ⟨hidentifier, hreserved⟩ : Target.isIdentifier name = true ∧ standard.isReserved name = false := by
        simpa using hname
      exact ⟨_, hbare name htext hv, keyFor_bare hidentifier hreserved⟩
    · exact hquoted (if_neg hname) rfl
  | number text x =>
    by_cases hsign : text.toList.head? = some '-' ∨ text.toList.head? = some '+'
    · refine hquoted (if_pos hsign) ?_
      rcases hsign with h | h <;> simp [Value.isUnsigned, h]
    · have htext : (keyOf standard (.number text x)).text = text := if_neg hsign
      refine ⟨_, hbare text htext (Value.isAtom_number hv), keyFor_number ?_⟩
      simpa [Value.isUnsigned] using hsign
  | boolean b => exact hquoted rfl rfl
  | constant name literal => exact hquoted rfl rfl
  | string s => exact hquoted rfl rfl

/-! ## Entries -/

section Entries
variable {α β : Type} {d : Dialect} {T T' : ScopeTable}

theorem exec_bind_eq_ok_iff {m : Emit α} {k : α → Emit β} {b : β} :
    exec (m >>= k) T = (.ok b, T') ↔ ∃ a T₁, exec m T = (.ok a, T₁) ∧ exec (k a) T₁ = (.ok b, T') := by
  refine ⟨exec_bind_ok, ?_⟩
  rintro ⟨a, T₁, hm, hk⟩
  rw [exec_bind_of_ok hm, hk]

theorem exec_pure_eq_ok_iff {a b : α} : exec (pure a) T = (.ok b, T') ↔ a = b ∧ T = T' := by
  simp

theorem exec_requireExpression_bind {n : Node} {k : Unit → Emit β} {b : β} :
    exec (requireExpression d n >>= k) T = (.ok b, T') ↔ isExpression d n = true ∧ exec (k ()) T = (.ok b, T') := by
  unfold requireExpression
  by_cases h : isExpression d n = true
  · rw [if_pos h, pure_bind]
    exact (and_iff_right h).symm
  · rw [if_neg h]
    simp [exec_bind, h]

theorem exec_nodes_cons_iff {n : Node} {ns : List Node} {f : Frame} {codes : List String} :
    exec (nodes d (n :: ns) f) T = (.ok codes, T') ↔ ∃ s T₁ more, exec (node d n f) T = (.ok s, T₁) ∧
      exec (nodes d ns f) T₁ = (.ok more, T') ∧ codes = s :: more := by
  simp only [nodes, exec_bind_eq_ok_iff, exec_pure_eq_ok_iff]
  constructor
  · rintro ⟨s, T₁, hs, more, _, hmore, rfl, rfl⟩
    exact ⟨s, T₁, more, hs, hmore, rfl⟩
  · rintro ⟨s, T₁, more, hs, hmore, rfl⟩
    exact ⟨s, T₁, hs, more, T', hmore, rfl, rfl⟩

/-- One more entry: its name is new, and its value is emitted before the entries that follow. -/
theorem exec_entries_cons_iff {v : Value} {t : Token} {n : Node} {rest : List Node} {f : Frame}
    {seen es : List String} :
    exec (entries d seen (.leaf v t :: n :: rest) f) T = (.ok es, T') ↔
      v.propertyName ∉ seen ∧ isExpression d n = true ∧ ∃ s T₁ more, exec (node d n f) T = (.ok s, T₁) ∧
        exec (entries d (v.propertyName :: seen) rest f) T₁ = (.ok more, T') ∧
        es = ((keyOf d v).text ++ ": " ++ s) :: more := by
  have hkey : key d (.leaf v t) = pure (keyOf d v) := rfl
  simp only [entries, hkey, pure_bind, keyOf_name]
  by_cases hseen : v.propertyName ∈ seen
  · simp [hseen, exec_bind]
  · rw [if_neg hseen, exec_requireExpression_bind, and_iff_right hseen]
    simp only [exec_bind_eq_ok_iff, exec_pure_eq_ok_iff]
    refine and_congr_right fun _ => ?_
    constructor
    · rintro ⟨s, T₁, hs, more, _, hmore, rfl, rfl⟩
      exact ⟨s, T₁, more, hs, hmore, rfl⟩
    · rintro ⟨s, T₁, more, hs, hmore, rfl⟩
      exact ⟨s, T₁, hs, more, T', hmore, rfl, rfl⟩

def keyNode (k : Value × Token) : Node := .leaf k.1 k.2

/-- **When the entries of an object are emitted**: the keys are atoms whose names are different from each other and from
those before them, and the values can be used as values and are emitted one after the other. -/
theorem exec_entries_ok_iff {f : Frame} {args : List Node} {seen es : List String} :
    exec (entries d seen args f) T = (.ok es, T') ↔
      ∃ (ks : List (Value × Token)) (codes : List String), (pairs args).map Prod.fst = ks.map keyNode ∧
        (ks.map fun k => k.1.propertyName).Nodup ∧ (∀ k ∈ ks, k.1.propertyName ∉ seen) ∧
        (∀ p ∈ pairs args, isExpression d p.2 = true) ∧
        exec (nodes d ((pairs args).map Prod.snd) f) T = (.ok codes, T') ∧
        es = List.zipWith (fun k code => (keyOf d k.1).text ++ ": " ++ code) ks codes := by
  fun_induction pairs args generalizing seen T es with
  | case2 args hargs =>
    have hnil : entries d seen args f = pure [] := by
      rcases args with _ | ⟨k, _ | ⟨n, rest⟩⟩
      · rfl
      · rfl
      · exact (hargs k n rest rfl).elim
    rw [hnil, exec_pure_eq_ok_iff]
    constructor
    · rintro ⟨rfl, rfl⟩
      exact ⟨[], [], rfl, .nil, by simp, by simp, rfl, rfl⟩
    · rintro ⟨ks, codes, hks, -, -, -, hcodes, rfl⟩
      obtain rfl : ks = [] := List.map_eq_nil_iff.1 hks.symm
      cases hcodes
      exact ⟨rfl, rfl⟩
  | case1 k n rest ih =>
    cases k with
    | list es' t =>
      -- a list is no key
      constructor
      · intro h
        cases h
      · rintro ⟨ks, codes, hks, -⟩
        cases ks with
        | nil => cases hks
        | cons k ks => cases hks
    | leaf v t =>
      simp only [exec_entries_cons_iff, List.map_cons, exec_nodes_cons_iff, ih, List.forall_mem_cons]
      constructor
      · rintro ⟨hseen, hn, s, T₁, _, hs, ⟨ks, codes, hks, hnodup, hnew, hvalues, hcodes, rfl⟩, rfl⟩
        refine ⟨(v, t) :: ks, s :: codes, by rw [hks]; rfl, ?_, ?_, ⟨hn, hvalues⟩, ⟨s, T₁, codes, hs, hcodes, rfl⟩, rfl⟩
        · refine List.nodup_cons.2 ⟨fun hmem => ?_, hnodup⟩
          obtain ⟨k, hk, hname⟩ := List.mem_map.1 hmem
          exact hnew k hk (by simp [hname])
        · exact List.forall_mem_cons.2 ⟨hseen, fun k hk hmem => hnew k hk (List.mem_cons_of_mem _ hmem)⟩
      · rintro ⟨ks, codes, hks, hnodup, hnew, ⟨hn, hvalues⟩, ⟨s, T₁, more, hs, hmore, rfl⟩, rfl⟩
        obtain ⟨k, ks, rfl, hk, hrest⟩ := List.map_eq_cons_iff.1 hks.symm
        cases hk
        obtain ⟨hfresh, hnodup⟩ := List.nodup_cons.1 hnodup
        obtain ⟨hseen, hnew⟩ := List.forall_mem_cons.1 hnew
        refine ⟨hseen, hn, s, T₁, _, hs, ⟨ks, more, hrest.symm, hnodup, fun k hk => ?_, hvalues, hmore, rfl⟩, rfl⟩
        refine List.mem_cons.not.2 (not_or.2 ⟨fun hname => hfresh ?_, hnew k hk⟩)
        exact List.mem_map.2 ⟨k, hk, hname⟩

def objectLiteral (f : Frame) (es : List String) : String := if es.isEmpty then "\x7b\x7d" else objectText f es

theorem exec_object_ok_iff {name : String} (hform : d.form name = .object) {op t : Token} {args : List Node} {f : Frame}
    {s : String} :
    exec (node d (.list (.leaf (.symbol name) op :: args) t) f) T = (.ok s, T') ↔ args.length % 2 = 0 ∧
      ∃ es, exec (entries d [] args (f.under "object").deeper) T = (.ok es, T') ∧
        s = parenthesize f.statementPosition (objectLiteral f es) := by
  simp only [node, hform]
  by_cases heven : args.length % 2 = 0
  · rw [if_pos heven, exec_bind_eq_ok_iff, and_iff_right heven]
    simp only [exec_pure_eq_ok_iff]
    constructor
    · rintro ⟨es, _, hes, rfl, rfl⟩
      exact ⟨es, hes, rfl⟩
    · rintro ⟨es, hes, rfl⟩
      exact ⟨es, T', hes, rfl, rfl⟩
  · simp [heven]

end Entries

theorem eq_object_of_form {name : String} (h : standard.form name = .object) : name = "object" := by
  have htable : ∀ e ∈ standard.specialForms.entries, e.2 = .object → e.1 = "object" := by decide
  exact htable _ (Dialect.mem_of_form h (by decide)) rfl

theorem properties?_objectLiteral (f : Frame) {es : List String} {ps : List (PropertyKey × String)}
    (h : List.Forall₂ IsEntry es ps) : properties? (objectLiteral f es) = some ps := by
  cases h with
  | nil => exact Target.properties?_empty
  | cons he hes => exact Target.properties?_objectText f (.cons he hes) (by simp)

/-- The codes of values have no commas outside of brackets. -/
theorem values_phrase {ns : List Node} {f : Frame} {T T' : ScopeTable} {codes : List String}
    (hns : ∀ n ∈ ns, n.Readable ∧ isExpression standard n = true)
    (h : exec (nodes standard ns f) T = (.ok codes, T')) :
    ns.length = codes.length ∧ ∀ code ∈ codes, Phrase f.depth false code := by
  have hcodes : List.Forall₂ (fun n => Phrase f.depth (!isExpression standard n)) ns codes :=
    nodes_ensures (fun n hn => node_phrase n f (hns n hn).1) T codes T' h
  refine ⟨hcodes.length_eq, forall_mem_of_forall₂ hcodes fun n hn code hcode => ?_⟩
  rwa [(hns n hn).2] at hcode

/-- Entries are read back as their keys and values. -/
theorem exists_properties {k : Nat} {ks : List (Value × Token)} {codes : List String} (hks : ∀ x ∈ ks, x.1.Readable)
    (hcodes : ∀ code ∈ codes, Phrase k false code) (hlength : ks.length = codes.length) :
    ∃ ps : List (PropertyKey × String), ps.map Prod.snd = codes ∧
      List.Forall₂ (fun x p => KeyFor x.1 p.1) ks ps ∧
      List.Forall₂ IsEntry (List.zipWith (fun x code => (keyOf standard x.1).text ++ ": " ++ code) ks codes) ps := by
  induction ks generalizing codes with
  | nil =>
    obtain rfl : codes = [] := List.length_eq_zero_iff.1 hlength.symm
    exact ⟨[], rfl, .nil, .nil⟩
  | cons x ks ih =>
    cases codes with
    | nil => cases hlength
    | cons code codes =>
      obtain ⟨hx, hks⟩ := List.forall_mem_cons.1 hks
      obtain ⟨hcode, hcodes⟩ := List.forall_mem_cons.1 hcodes
      obtain ⟨key, hentry, hkey⟩ := exists_isEntry hx hcode
      obtain ⟨ps, hps, hkeys, hentries⟩ := ih hks hcodes (Nat.succ.inj hlength)
      exact ⟨(key, code) :: ps, by rw [List.map_cons, hps], .cons hkey hkeys, .cons hentry hentries⟩

def DistinctKeys (args : List Node) (ks : List (Value × Token)) : Prop :=
  (pairs args).map Prod.fst = ks.map keyNode ∧ (ks.map fun k => k.1.propertyName).Nodup

/-- **Object literals have different properties.** An object is emitted exactly if its arguments come in pairs, all keys
are atoms with different names, and the values are emitted one after the other; the literal then reads back as these
keys and values in order. A key is called a repetition only where an object, this one or one in it, has an earlier key
with the same name. -/
theorem object_properties {args : List Node} (hargs : Node.AllReadable args) (op t : Token) (f : Frame)
    (T : ScopeTable) :
    let object := Node.list (.leaf (.symbol "object") op :: args) t
    let values := nodes standard ((pairs args).map Prod.snd) (f.under "object").deeper
    ((∃ s T', exec (node standard object f) T = (.ok s, T')) ↔ args.length % 2 = 0 ∧ (∃ ks, DistinctKeys args ks) ∧
      (∀ p ∈ pairs args, isExpression standard p.2 = true) ∧ ∃ codes T', exec values T = (.ok codes, T')) ∧
    (∀ s T', exec (node standard object f) T = (.ok s, T') → ∃ ks ps literal, DistinctKeys args ks ∧
      s = parenthesize f.statementPosition literal ∧ properties? literal = some ps ∧
      List.Forall₂ (fun k p => KeyFor k.1 p.1) ks ps ∧ exec values T = (.ok (ps.map Prod.snd), T')) ∧
    ∀ e T', exec (node standard object f) T = (.error e, T') → e.cause.isRepetition = true →
      ∃ op' args' t', Node.Beneath (.list (.leaf (.symbol "object") op' :: args') t') object ∧
        Repeats standard [] args' e := by
  intro object values
  have hform : standard.form "object" = .object := rfl
  refine ⟨?_, fun s T' h => ?_, fun e T' h hc => ?_⟩
  · simp only [object, exec_object_ok_iff hform, exec_entries_ok_iff]
    constructor
    · rintro ⟨s, T', heven, es, ⟨ks, codes, hks, hnodup, -, hvalues, hcodes, -⟩, -⟩
      exact ⟨heven, ⟨ks, hks, hnodup⟩, hvalues, codes, T', hcodes⟩
    · rintro ⟨heven, ⟨ks, hks, hnodup⟩, hvalues, codes, T', hcodes⟩
      exact ⟨_, T', heven, _, ⟨ks, codes, hks, hnodup, by simp, hvalues, hcodes, rfl⟩, rfl⟩
  · obtain ⟨-, es, hes, rfl⟩ := (exec_object_ok_iff hform).1 h
    obtain ⟨ks, codes, hks, hnodup, -, hvalues, hcodes, rfl⟩ := exec_entries_ok_iff.1 hes
    have hreadable : ∀ k ∈ ks, k.1.Readable := by
      intro k hk
      have hmem : keyNode k ∈ (pairs args).map Prod.fst := hks ▸ List.mem_map_of_mem hk
      obtain ⟨p, hp, hkey⟩ := List.mem_map.1 hmem
      have hnode := Node.allReadable_iff.1 hargs _ (mem_of_mem_pairs hp).1
      rw [hkey] at hnode
      exact hnode
    have hvalue : ∀ n ∈ (pairs args).map Prod.snd, n.Readable ∧ isExpression standard n = true := by
      intro n hn
      obtain ⟨p, hp, rfl⟩ := List.mem_map.1 hn
      exact ⟨Node.allReadable_iff.1 hargs _ (mem_of_mem_pairs hp).2, hvalues p hp⟩
    obtain ⟨hcount, hplain⟩ := values_phrase hvalue hcodes
    have hlength : ks.length = codes.length := by
      rw [← hcount, List.length_map, ← List.length_map (f := keyNode), ← hks, List.length_map]
    obtain ⟨ps, rfl, hkeys, hentries⟩ := exists_properties hreadable hplain hlength
    exact ⟨ks, ps, _, ⟨hks, hnodup⟩, rfl, properties?_objectLiteral f hentries, hkeys, hcodes⟩
  · obtain ⟨name, op', args', t', hobject, hbeneath, hrepeats⟩ := (node_blames object f T e T' h).repeats hc
    obtain rfl := eq_object_of_form hobject
    exact ⟨op', args', t', hbeneath, hrepeats⟩

/-- A bare key, a reserved word, and a signed number in an object of its own. -/
theorem object_properties_nested :
    let t : Token := ⟨.atom, "", ⟨1, 1⟩⟩
    let inner := Node.list [.leaf (.symbol "object") t, .leaf (standard.atomValue "-1.50") t, .leaf (.symbol "x") t] t
    let args := [.leaf (.symbol "a") t, .leaf (.string "\x7d, b: 1") t, .leaf (.symbol "if") t, inner]
    let s := "(\x7b\n  a: \"\x7d, b: 1\",\n  \"if\": \x7b\n    \"-1.5\": x\n  \x7d\n\x7d)"
    Node.AllReadable args ∧
      exec (node standard (.list (.leaf (.symbol "object") t :: args) t) .top) .initial = (.ok s, .initial) ∧
      ∃ ks ps literal, DistinctKeys args ks ∧ s = parenthesize true literal ∧ properties? literal = some ps ∧
        List.Forall₂ (fun k p => KeyFor k.1 p.1) ks ps ∧
        exec (nodes standard ((pairs args).map Prod.snd) (Frame.top.under "object").deeper) .initial =
          (.ok (ps.map Prod.snd), .initial) := by
  intro t inner args s
  have hargs : Node.AllReadable args := Node.allReadable_iff.2 (by decide +kernel)
  have hexec : exec (node standard (.list (.leaf (.symbol "object") t :: args) t) .top) .initial =
      (.ok s, .initial) := by
    simp only [args, inner, t, s]
    cbv
  exact ⟨hargs, hexec, (object_properties hargs t t .top .initial).2.1 s .initial hexec⟩

section Tilde
-- evaluation goes through the table of letters
set_option maxRecDepth 4000

/-- A vertical tilde is written bare, but it is no identifier name and denotes no property. -/
theorem generate_bare_tilde :
    (generate standard .initial (Reading.ofText standard "\x7b\u2e2f 1\x7d".toList).nodes).1 =
        .ok "(\x7b\n  \u2e2f: 1\n\x7d);\n" ∧
      properties? "\x7b\n  \u2e2f: 1\n\x7d" = some [(.bare "\u2e2f", "1")] ∧
      ∀ A : Alphabet, (PropertyKey.bare "\u2e2f").name? A = none := by
  refine ⟨by cbv, by cbv, fun A => ?_⟩
  have hname := (A.isIdentifierName_iff (s := "\u2e2f") (by decide +kernel)).not.2 (by decide)
  rw [PropertyKey.name?, if_neg hname]

end Tilde
end Emit
end QuasiScript
