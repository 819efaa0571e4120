import QuasiScript.Proofs.Brackets
import QuasiScript.Emit.Node

/-!
# Texts that the forms are made of

A phrase is a text of some depth that may begin a line (`Brackets.Phrase`). Literals and keys are phrases, and so are
the texts of calls, blocks, objects and headings whose parts are. Phrases of depth zero that follow one another on lines
of their own are balanced and laid out (`program_laidOut`).
-/
namespace QuasiScript
open Dialect (standard)

/-- A readable value is a string, or its literal is an atom that is read as it. -/
theorem Value.isAtom_literal {v : Value} (hv : v.Readable) : (∃ s, v = .string s) ∨ v.IsAtom (Target.literal v) := by
  refine (isAtom_surface hv).imp_right fun hatom => ?_
  have hliteral : Target.literal v = v.surface := by
    cases v with
    | constant name literal =>
      have hsame : ∀ e ∈ standard.constants.entries, Target.literal e.2 = e.2.surface := by decide
      obtain ⟨e, he, heq⟩ := List.mem_map.1 hv
      rw [← heq, hsame e he]
    | boolean b => cases b <;> rfl
    | string s =>
      -- the surface of a string begins with a quote, as no atom does
      exact absurd (hatom.2.1 '"' (by simp [surface, quoteSurface])) (by decide)
    | _ => rfl
  rw [hliteral]
  exact hatom

namespace Brackets

/-! ## Texts that may begin a line -/

structure Phrase (k : Nat) (commas : Bool) (s : String) : Prop where
  code : Code k commas s
  begins : Begins s

section Phrase
variable {k : Nat} {commas : Bool} {s t sep : String} {ss : List String}

theorem Begins.append (h : Begins s) (t : String) : Begins (s ++ t) := by
  obtain ⟨c, hc, hne⟩ := h
  refine ⟨c, ?_, hne⟩
  rw [String.toList_append]
  exact List.mem_head?_append_of_mem_head? hc

theorem Phrase.append (hs : Phrase k commas s) (ht : Code k commas t) : Phrase k commas (s ++ t) :=
  ⟨hs.code.append ht, hs.begins.append t⟩

theorem Phrase.mono (h : Phrase k false s) : Phrase k commas s := ⟨h.code.mono, h.begins⟩

theorem Phrase.loose (h : Phrase k commas s) : Phrase k true s := by
  cases commas with
  | false => exact h.mono
  | true => exact h

theorem phrase_round (h : Code k true s) : Phrase k commas ("(" ++ s ++ ")") :=
  ⟨.round h, '(', by simp, by decide⟩

theorem phrase_square (h : Code k true s) : Phrase k commas ("[" ++ s ++ "]") :=
  ⟨.square h, '[', by simp, by decide⟩

theorem phrase_quote (s : String) : Phrase k commas (Target.quote s) :=
  ⟨.quoted s, '"', by simp [Target.quote], by decide⟩

/-- A word of the language begins a line like any other text. -/
theorem phrase_word (h : ∀ c ∈ s.toList, IsPlain commas c) (hb : Begins s) : Phrase k commas s := ⟨.plain h, hb⟩

theorem code_intercalate (hsep : Code k commas sep) : ∀ {ss : List String}, (∀ s ∈ ss, Code k commas s) →
    Code k commas (sep.intercalate ss)
  | [], _ => .plain (by simp)
  | [s], h => by simpa using h
  | s :: t :: ss, h => by
    obtain ⟨hs, hss⟩ := List.forall_mem_cons.1 h
    rw [String.intercalate_cons_cons]
    exact (hs.append hsep).append (code_intercalate hsep hss)

theorem begins_intercalate (sep : String) (hs : Begins s) (ss : List String) : Begins (sep.intercalate (s :: ss)) := by
  cases ss with
  | nil => simpa using hs
  | cons t ss =>
    rw [String.intercalate_cons_cons, String.append_assoc]
    exact hs.append _

/-- Lines, each of which ends in `sep`. -/
theorem code_lines (hsep : Code k commas sep) : ∀ {ss : List String}, (∀ s ∈ ss, Phrase k commas s) →
    Code k commas ((sep ++ newline k).intercalate ss)
  | [], _ => .plain (by simp)
  | [s], h => by simpa using (h s (by simp)).code
  | s :: t :: ss, h => by
    obtain ⟨hs, hss⟩ := List.forall_mem_cons.1 h
    have hline := Code.line (begins_intercalate (sep ++ newline k) (hss t (by simp)).begins ss) (code_lines hsep hss)
    have hcat : (sep ++ newline k).intercalate (s :: t :: ss) =
        s ++ sep ++ (newline k ++ (sep ++ newline k).intercalate (t :: ss)) := by
      simp only [String.intercalate_cons_cons, String.append_assoc]
    rw [hcat]
    exact (hs.code.append hsep).append hline

end Phrase

/-! ## Leaves -/

section Leaves
variable {k : Nat} {commas : Bool} {v : Value} {text : String}

theorem phrase_atom (h : v.IsAtom text) : Phrase k commas text := by
  obtain ⟨hne, hall, -⟩ := h
  have hplain : ∀ c, c ∉ Cursor.delimiters → IsPlain commas c ∧ c ∉ [' ', '\n', '\x7d'] := by
    intro c hc
    have hsub : ∀ x ∈ ['(', ')', '[', ']', '\x7b', '\x7d', '"', '\n', ',', ' '], x ∈ Cursor.delimiters := by decide
    refine ⟨⟨fun h => hc (hsub c ?_), fun h => absurd (hsub c (by simp [h])) hc⟩, fun h => hc (hsub c ?_)⟩
    · exact List.mem_append_left [',', ' '] h
    · exact (by decide : [' ', '\n', '\x7d'] ⊆ ['(', ')', '[', ']', '\x7b', '\x7d', '"', '\n', ',', ' ']) h
  have hchar : ∀ c ∈ text.toList, IsPlain commas c ∧ c ∉ [' ', '\n', '\x7d'] := fun c hc =>
    hplain c (Cursor.isAtomChar_standard.1 (hall c hc))
  refine ⟨.plain fun c hc => (hchar c hc).1, ?_⟩
  cases htext : text.toList with
  | nil => exact absurd (String.toList_eq_nil_iff.1 htext) hne
  | cons c cs => exact ⟨c, by rw [htext]; rfl, (hchar c (by simp [htext])).2⟩

theorem phrase_literal (hv : v.Readable) : Phrase k commas (Target.literal v) := by
  rcases Value.isAtom_literal hv with ⟨s, rfl⟩ | hatom
  · exact phrase_quote s
  · exact phrase_atom hatom

theorem phrase_datumLeaf (hv : v.Readable) : Phrase k commas (Emit.datumLeaf v) := by
  unfold Emit.datumLeaf
  split
  · exact phrase_quote _
  · exact phrase_literal hv

theorem phrase_key (hv : v.Readable) : Phrase k commas (Emit.keyOf standard v).text := by
  cases v with
  | symbol name =>
    dsimp only [Emit.keyOf]
    split
    · exact phrase_literal hv
    · exact phrase_quote name
  | number text x =>
    dsimp only [Emit.keyOf]
    split
    · exact phrase_quote _
    · exact phrase_literal hv
  | _ => exact phrase_quote _

end Leaves

/-! ## Programs -/

/-- A top-level code up to the end of its last line. -/
theorem segment_laidOut {s : String} (h : Phrase 0 true s) :
    Balanced (s ++ ";\n").toList ∧ LaidOut (s ++ ";\n").toList := by
  have hscan := scan_code h.code []
  rw [String.toList_append]
  refine ⟨?_, ?_⟩
  · rw [Balanced, scan_append, hscan]
    rfl
  · obtain ⟨c, hc, hne⟩ := h.begins
    simp only [List.mem_cons, List.not_mem_nil, or_false, not_or] at hne
    obtain ⟨hspace, hbreak, hclose⟩ := hne
    have hline : LineBegins [] s.toList :=
      ⟨0, c, s.toList.tail, by rw [List.cons_head?_tail hc]; rfl, hspace, hbreak, by simp [hclose]⟩
    have hend : LaidFrom false ⟨.code, []⟩ ";\n".toList :=
      (laidFrom_singleton ';').append (b := ['\n']) rfl (laidFrom_singleton '\n') (by decide)
    refine ((laidFrom_code h.code rfl).begin hline).append hscan hend fun hlast => ?_
    rcases hlast with ⟨hnil, -⟩ | hlast
    · rw [hnil] at hc
      cases hc
    · exact absurd hlast (getLast?_code h.code)

theorem program_laidOut : ∀ {codes : List String}, (∀ s ∈ codes, Phrase 0 true s) →
    Balanced (String.join (codes.map (· ++ ";\n"))).toList ∧ LaidOut (String.join (codes.map (· ++ ";\n"))).toList
  | [], _ => by
    refine ⟨rfl, fun before rest hcat hne => ?_⟩
    exact absurd (List.append_eq_nil_iff.1 hcat.symm).2 hne
  | s :: codes, h => by
    obtain ⟨hs, hcodes⟩ := List.forall_mem_cons.1 h
    obtain ⟨hscan, hlaid⟩ := segment_laidOut hs
    obtain ⟨ihscan, ihlaid⟩ := program_laidOut hcodes
    rw [List.map_cons, String.join_cons, String.toList_append]
    refine ⟨?_, hlaid.append hscan ihlaid fun _ => rfl⟩
    rw [Balanced, scan_append, hscan]
    exact ihscan

end Brackets

namespace Emit
open Brackets

/-! ## Texts of forms -/

section Texts
variable {k : Nat} {commas : Bool} {s : String} {ss : List String} {ns : List Node} {f : Frame}

theorem forall_mem_of_forall₂ {R : Node → String → Prop} {P : String → Prop} (h : List.Forall₂ R ns ss)
    (hR : ∀ n ∈ ns, ∀ s, R n s → P s) : ∀ s ∈ ss, P s := by
  induction h with
  | nil => simp
  | cons hs _ ih =>
    obtain ⟨hn, hns⟩ := List.forall_mem_cons.1 hR
    exact List.forall_mem_cons.2 ⟨hn _ hs, ih hns⟩

theorem phrase_parenthesize (wanted : Bool) (h : Phrase k commas s) (h' : Code k true s) :
    Phrase k commas (parenthesize wanted s) := by
  unfold parenthesize
  split
  · exact phrase_round h'
  · exact h

/-- Operands between brackets. -/
theorem code_commas (h : ∀ s ∈ ss, Phrase k commas s) : Code k true (", ".intercalate ss) :=
  code_intercalate (.plain (by decide)) fun s hs => (h s hs).loose.code

theorem phrase_call {callee : String} (hcallee : Phrase k commas callee) (h : ∀ s ∈ ss, Phrase k false s) :
    Phrase k commas (callee ++ "(" ++ ", ".intercalate ss ++ ")") := by
  have hcat : callee ++ "(" ++ ", ".intercalate ss ++ ")" = callee ++ ("(" ++ ", ".intercalate ss ++ ")") := by
    simp only [String.append_assoc]
  rw [hcat]
  exact hcallee.append (.round (code_commas h))

theorem phrase_braces (h : Code (k + 1) true s) : Phrase k commas ("\x7b " ++ s ++ " \x7d") := by
  have hblank : Code (k + 1) true " " := .plain (by decide)
  have hcat : "\x7b " ++ s ++ " \x7d" = "\x7b" ++ (" " ++ s ++ " ") ++ "\x7d" := by
    have hopen : "\x7b " = "\x7b" ++ " " := rfl
    have hclose : " \x7d" = " " ++ "\x7d" := rfl
    simp only [hopen, hclose, String.append_assoc]
  rw [hcat]
  exact ⟨.brace ((hblank.append h).append hblank), '\x7b', by simp, by decide⟩

/-- A word and a text in parentheses after it. -/
theorem phrase_test (word : String) (hword : ∀ c ∈ word.toList, IsPlain commas c) (hb : Begins word)
    (h : Code k true s) : Phrase k commas (word ++ "(" ++ s ++ ")") := by
  have hcat : word ++ "(" ++ s ++ ")" = word ++ ("(" ++ s ++ ")") := by simp only [String.append_assoc]
  rw [hcat]
  exact (phrase_word hword hb).append (.round h)

/-- A block after its heading. -/
theorem phrase_headed {heading block : String} (h : Phrase k commas (heading ++ ")")) (hb : Phrase k commas block) :
    Phrase k commas (heading ++ ") " ++ block) := by
  have hcat : heading ++ ") " ++ block = heading ++ ")" ++ " " ++ block := by
    have hclose : ") " = ")" ++ " " := rfl
    simp only [hclose, String.append_assoc]
  have hblank : Code k false " " := .plain (by decide)
  rw [hcat]
  exact (h.append hblank.mono).append hb.code

theorem phrase_blockText {prelude : Option String} (hp : ∀ s ∈ prelude, Phrase (f.depth + 1) true s)
    (h : List.Forall₂ (fun _ => Phrase (f.depth + 1) true) ns ss) (hne : ns ≠ []) :
    Phrase f.depth commas (blockText f prelude ss) := by
  have hlines : Phrase (f.depth + 1) true (f.deeper.newline.intercalate (ss.map (· ++ ";"))) := by
    have hss : ∀ s ∈ ss.map (· ++ ";"), Phrase (f.depth + 1) true s := by
      intro s hs
      obtain ⟨t, ht, rfl⟩ := List.mem_map.1 hs
      exact (forall_mem_of_forall₂ h (fun _ _ _ => id) t ht).append (.plain (by decide))
    refine ⟨?_, ?_⟩
    · have hempty : Code (f.depth + 1) true "" := .plain (by simp)
      have hlines := code_lines hempty hss
      rwa [String.empty_append] at hlines
    · cases h with
      | nil => exact absurd rfl hne
      | cons hs _ => exact begins_intercalate _ (hs.begins.append ";") _
  cases prelude with
  | none =>
    have hcat : blockText f none ss = "\x7b " ++ f.deeper.newline.intercalate (ss.map (· ++ ";")) ++ " \x7d" := by
      simp [blockText]
    rw [hcat]
    exact phrase_braces hlines.code
  | some line =>
    have hcat : blockText f (some line) ss = "\x7b " ++ (line ++ (newline (f.depth + 1) ++
        f.deeper.newline.intercalate (ss.map (· ++ ";")))) ++ " \x7d" := by
      simp only [blockText, String.append_assoc]
      rfl
    rw [hcat]
    exact phrase_braces ((hp line rfl).code.append (.line hlines.begins hlines.code))

theorem phrase_objectText (h : ∀ s ∈ ss, Phrase (f.depth + 1) false s) (hne : ss ≠ []) :
    Phrase f.depth commas (objectText f ss) := by
  have hlines : Phrase (f.depth + 1) true (("," ++ f.deeper.newline).intercalate ss) := by
    refine ⟨code_lines (.plain (by decide)) fun s hs => (h s hs).mono, ?_⟩
    obtain ⟨t, rest, rfl⟩ := List.exists_cons_of_ne_nil hne
    exact begins_intercalate _ (h t (by simp)).begins _
  have hcat : objectText f ss = "\x7b" ++ (f.deeper.newline ++ ("," ++ f.deeper.newline).intercalate ss) ++ f.newline ++
      "\x7d" := by
    simp only [objectText, String.append_assoc]
  rw [hcat]
  exact ⟨.hanging (.line hlines.begins hlines.code), '\x7b', by simp, by decide⟩

theorem phrase_counting {x first last block : String} (hx : Phrase k true x) (hfirst : Phrase k true first)
    (hlast : Phrase k true last) (hblock : Phrase k commas block) :
    Phrase k commas ("for (var " ++ x ++ " = " ++ first ++ "; " ++ x ++ " <= " ++ last ++ "; " ++ x ++ "++) " ++
      block) := by
  have hword : ∀ c ∈ "for ".toList, IsPlain false c := by decide
  have hplain : ∀ s ∈ ["var ", " = ", "; ", " <= ", "++"], Code k true s := by
    have : ∀ s ∈ ["var ", " = ", "; ", " <= ", "++"], ∀ c ∈ s.toList, IsPlain true c := by decide
    exact fun s hs => .plain (this s hs)
  have hrange : Code k true ("var " ++ x ++ " = " ++ first ++ "; " ++ x ++ " <= " ++ last ++ "; " ++ x ++ "++") := by
    refine .append (.append (.append (.append (.append (.append (.append (.append (.append (.append ?_ hx.code) ?_)
      hfirst.code) ?_) hx.code) ?_) hlast.code) ?_) hx.code) ?_
    all_goals exact hplain _ (by simp)
  have hheading := phrase_test "for " hword ⟨'f', rfl, by decide⟩ hrange
  have hcat : "for (var " ++ x ++ " = " ++ first ++ "; " ++ x ++ " <= " ++ last ++ "; " ++ x ++ "++) " ++ block =
      "for " ++ "(" ++ ("var " ++ x ++ " = " ++ first ++ "; " ++ x ++ " <= " ++ last ++ "; " ++ x ++ "++") ++ ") " ++
        block := by
    have hopen : "for (var " = "for " ++ "(" ++ "var " := rfl
    have hclose : "++) " = "++" ++ ") " := rfl
    simp only [hopen, hclose, String.append_assoc]
  rw [hcat]
  exact phrase_headed hheading.mono hblock

/-- The line that collects the remaining arguments. -/
theorem phrase_collectRest (hs : Phrase k true s) (i : Nat) : Phrase k true (collectRest s i) := by
  have hdigits : Code k true (toString i) := by
    refine .plain fun c hc => ?_
    have hdigit : c.isDigit = true := Nat.isDigit_of_mem_toDigits (by decide) (by decide) (Nat.toList_repr ▸ hc)
    have hne : ∀ x ∈ ['(', ')', '[', ']', '\x7b', '\x7d', '"', '\n'], x.isDigit = false := by decide
    refine ⟨fun hmem => ?_, fun _ => rfl⟩
    rw [hne c hmem] at hdigit
    cases hdigit
  have hcat : collectRest s i = "var " ++ s ++ " = Array.prototype.slice.call" ++ ("(" ++ ("arguments, " ++ toString i) ++
      ")") ++ ";" := by
    have hcall : " = Array.prototype.slice.call(arguments, " = " = Array.prototype.slice.call" ++ "(" ++ "arguments, " :=
      rfl
    have hend : ");" = ")" ++ ";" := rfl
    simp only [collectRest, hcall, hend, String.append_assoc]
  have hvar : Phrase k true "var " := phrase_word (by decide) ⟨'v', rfl, by decide⟩
  rw [hcat]
  exact (((hvar.append hs.code).append (.plain (by decide))).append
    (.round (Code.append (.plain (by decide)) hdigits))).append (.plain (by decide))

theorem phrase_existence (hs : Phrase k commas s) :
    Phrase k commas ("typeof " ++ s ++ " !== \"undefined\" && " ++ s ++ " !== null") := by
  have hcat : " !== \"undefined\" && " = " !== " ++ Target.quote "undefined" ++ " && " := by decide
  have htypeof : Phrase k false "typeof " := phrase_word (by decide) ⟨'t', rfl, by decide⟩
  have hunequal : Code k false " !== " := .plain (by decide)
  have hand : Code k false " && " := .plain (by decide)
  have hnull : Code k false " !== null" := .plain (by decide)
  rw [hcat]
  refine (((htypeof.mono.append hs.code).append ?_).append hs.code).append hnull.mono
  exact (hunequal.mono.append (.quoted "undefined")).append hand.mono

end Texts

end Emit
end QuasiScript
