import QuasiScript.Proofs.TargetText

/-!
# Literals are read as their values

The expression that a leaf stands for (`ofValue?`): a dotted name is a variable and the fields of it, a signed numeral
is its sign applied to the rest, and the other literals stand for themselves. The literal that is emitted for the leaf
writes that expression (`writes_literal`).
-/
namespace QuasiScript
open Dialect (standard)

namespace Target

/-! ## Names and numbers -/

def reference? (A : Alphabet) (name : String) : Option Expr :=
  match name.toList.splitOn '.' with
  | [] => none
  | base :: fields =>
    if A.isIdentifierName base ∧ ¬ standard.isReserved (String.ofList base) ∧
        ∀ s ∈ fields, A.isIdentifierName s then
      some (fields.foldl (fun e s => .member e (String.ofList s)) (.name (String.ofList base)))
    else none

def fieldLexemes (fields : List (List Char)) : List Lexeme :=
  fields.flatMap fun s => [.sign .dot, .word (String.ofList s)]

theorem derives_fields : ∀ (fields : List (List Char)) {ts : List Lexeme} {e : Expr}, Derives 7 ts e →
    Derives 7 (ts ++ fieldLexemes fields) (fields.foldl (fun e s => .member e (String.ofList s)) e)
  | [], ts, _, h => by simpa [fieldLexemes] using h
  | s :: fields, ts, e, h => by
    have := derives_fields fields (h.member (String.ofList s))
    simpa [fieldLexemes] using this

variable {A : Alphabet}

theorem head_fields {rest : List Char} (hrest : ∀ c ∈ rest.head?, A.continues c = false) (fields : List (List Char)) :
    ∀ c ∈ (fields.flatMap ('.' :: ·) ++ rest).head?, A.continues c = false := by
  intro c hc
  cases fields with
  | nil => exact hrest c hc
  | cons s fields =>
    cases hc
    exact A.continues_pattern _ (by decide) (by decide)

theorem lexes_fields {rest : List Char} {us : List Lexeme} (hrest : ∀ c ∈ rest.head?, A.continues c = false)
    (h : Lexes A rest us) : ∀ fields : List (List Char), (∀ s ∈ fields, A.isIdentifierName s = true) →
      Lexes A (fields.flatMap ('.' :: ·) ++ rest) (fieldLexemes fields ++ us)
  | [], _ => h
  | s :: fields, hall => by
    obtain ⟨hs, hall⟩ := List.forall_mem_cons.1 hall
    have hword := lexes_word hs (head_fields hrest fields) (lexes_fields hrest h fields hall)
    obtain ⟨c, cs, rfl, hc, -⟩ := A.isIdentifierName_eq_true_iff.1 hs
    have := lexes_dot hc hword
    simpa [fieldLexemes] using this

theorem intercalate_dot : ∀ (base : List Char) (fields : List (List Char)),
    ['.'].intercalate (base :: fields) = base ++ fields.flatMap ('.' :: ·)
  | _, [] => by simp
  | base, s :: fields => by
    rw [List.intercalate_cons_cons, intercalate_dot s fields]
    simp

theorem ofLexeme?_of_not_reserved {s : String} (h : standard.isReserved s = false) :
    Expr.ofLexeme? (.word s) = some (.name s) := by
  have hne : ∀ w ∈ ["true", "false", "null"], s ≠ w := by
    intro w hw hs
    have hreserved : ∀ w ∈ ["true", "false", "null"], standard.isReserved w = true := by decide
    rw [hs, hreserved w hw] at h
    cases h
  simp [Expr.ofLexeme?, hne, h]

/-- **A dotted name is read as its variable and fields.** -/
theorem writes_reference {name : String} {e : Expr} (h : reference? A name = some e) :
    Writes A 7 name.toList e ∧ ∃ c ∈ name.toList.head?, c ≠ '-' := by
  unfold reference? at h
  split at h
  · cases h
  · rename_i base fields hsplit
    split at h
    · rename_i hok
      obtain ⟨hbase, hreserved, hfields⟩ := hok
      cases h
      have hname : name.toList = base ++ fields.flatMap ('.' :: ·) := by
        rw [← intercalate_dot, ← hsplit, List.intercalate_splitOn]
      have hatom := Derives.atom (ofLexeme?_of_not_reserved (Bool.not_eq_true _ ▸ hreserved))
      have hhead : ∃ c ∈ name.toList.head?, c ≠ '=' ∧ c ≠ '-' := by
        obtain ⟨c, cs, rfl, hc, -⟩ := A.isIdentifierName_eq_true_iff.1 hbase
        refine ⟨c, by simp [hname], ?_, ?_⟩
        · rintro rfl
          rw [A.starts_pattern (by decide) (by decide)] at hc
          cases hc
        · rintro rfl
          rw [A.starts_pattern (by decide) (by decide)] at hc
          cases hc
      obtain ⟨c, hc, hequal, hminus⟩ := hhead
      refine ⟨⟨⟨_, derives_fields fields hatom, fun rest us hrest hus => ?_⟩, c, hc, hequal⟩, c, hc, hminus⟩
      have hstop := continues_of_ends (A := A) hrest
      have := lexes_word hbase (head_fields hstop fields) (lexes_fields hstop hus fields hfields)
      rw [hname]
      simpa using this
    · cases h

/-! ## Literals -/

/-- What follows the sign of a numeral, or the numeral itself, is a magnitude. -/
theorem isMagnitude_of_parse? {cs : List Char} (h : (Numeral.parse? cs).isSome = true) :
    isMagnitude (Numeral.splitSign cs).2 = true := by
  rw [Numeral.parse?_eq_recognise?, Numeral.recognise?] at h
  rcases hs : Numeral.splitSign cs with ⟨negative, body⟩
  rw [hs] at h
  dsimp only at h ⊢
  -- a second sign is no digit
  have hbody : Numeral.Unsigned body := by
    intro c hc
    rw [← Bool.not_eq_true]
    intro hsign
    obtain ⟨ds, rfl⟩ := List.head?_eq_some_iff.1 hc
    have hnone := Numeral.decimal?_of_isSign hsign ds
    rcases Numeral.isSign_iff.1 hsign with rfl | rfl <;> simp [Numeral.recogniseBody?, hnone] at h
  have hunsigned : (Numeral.recogniseBody? false body).isSome = true := by
    unfold Numeral.recogniseBody? at h ⊢
    split at h <;> simp_all
  rw [isMagnitude, Numeral.parse?_eq_recognise?, Numeral.recognise?, Numeral.splitSign_of_unsigned hbody,
    beq_self_eq_true, Bool.true_and]
  exact hunsigned

theorem ne_of_isMagnitude {cs : List Char} (h : isMagnitude cs = true) : ∃ c ∈ cs.head?, c ≠ '-' ∧ c ≠ '+' := by
  cases cs with
  | nil => exact absurd h (by decide)
  | cons c cs =>
    refine ⟨c, rfl, ?_⟩
    constructor
    · rintro rfl
      rcases isMagnitude_cons h with h | ⟨h, -⟩ <;> exact absurd h (by decide)
    · rintro rfl
      rcases isMagnitude_cons h with h | ⟨h, -⟩ <;> exact absurd h (by decide)

def signed : List Char → Expr
  | '-' :: cs => .unary .minus (.number (String.ofList cs))
  | '+' :: cs => .unary .plus (.number (String.ofList cs))
  | cs => .number (String.ofList cs)

theorem writes_signed {cs : List Char} (h : (Numeral.parse? cs).isSome = true) : Writes A 6 cs (signed cs) := by
  have hmag := isMagnitude_of_parse? h
  unfold signed
  split
  · obtain ⟨c, hc, hminus, -⟩ := ne_of_isMagnitude hmag
    exact ((Writes.number hmag).loosen (by decide)).minus ⟨c, hc, hminus⟩
  · obtain ⟨c, hc, -, hplus⟩ := ne_of_isMagnitude hmag
    exact ((Writes.number hmag).loosen (by decide)).plus ⟨c, hc, hplus⟩
  · rename_i hminus hplus
    have hsplit : Numeral.splitSign cs = (false, cs) := by
      unfold Numeral.splitSign
      split
      · exact absurd rfl (hminus _)
      · exact absurd rfl (hplus _)
      · rfl
    rw [hsplit] at hmag
    exact (Writes.number hmag).loosen (by decide)

def constants : Table Expr :=
  ⟨[("null", .null), ("undefined", .name "undefined"), ("NaN", .name "NaN"), ("Infinity", .name "Infinity"),
    ("-Infinity", .unary .minus (.name "Infinity"))]⟩

def ofValue? (A : Alphabet) : Value → Option Expr
  | .number text _ => if (Numeral.parse? text.toList).isSome then some (signed text.toList) else none
  | .boolean b => some (.boolean b)
  | .constant name literal =>
    if standard.constants.get? name = some (.constant name literal) then constants.get? name else none
  | .symbol name => reference? A name
  | .string contents => some (.string contents)

theorem writes_word {s : String} {e : Expr} (hs : isIdentifier s = true) (htilde : verticalTilde ∉ s.toList)
    (he : Expr.ofLexeme? (.word s) = some e) : Writes A 6 s.toList e := by
  have hname : A.isIdentifierName s.toList = true := (A.isIdentifierName_iff hs).2 htilde
  rw [← String.ofList_toList (s := s)] at he
  exact (Writes.word hname he).loosen (by decide)

theorem writes_constant : ∀ p ∈ constants.entries, Writes A 6 p.1.toList p.2 := by
  have hinfinity : Writes A 6 "Infinity".toList (.name "Infinity") := writes_word (by decide) (by decide) rfl
  have hminus : "-Infinity".toList = '-' :: "Infinity".toList := by decide
  simp only [constants, List.forall_mem_cons, hminus]
  refine ⟨writes_word (by decide) (by decide) rfl, writes_word (by decide) (by decide) rfl,
    writes_word (by decide) (by decide) rfl, hinfinity, ?_, by simp⟩
  exact hinfinity.minus ⟨'I', by decide, by decide⟩

/-- **A literal is read as its value.** -/
theorem writes_literal : ∀ {v : Value} {e : Expr}, ofValue? A v = some e → Writes A 6 (literal v).toList e
  | .number text _, e, h => by
    simp only [ofValue?] at h
    split at h
    · rename_i hparse
      cases h
      exact writes_signed hparse
    · cases h
  | .boolean true, _, rfl => writes_word (by decide) (by decide) rfl
  | .boolean false, _, rfl => writes_word (by decide) (by decide) rfl
  | .constant name literal, e, h => by
    simp only [ofValue?] at h
    split at h
    · rename_i hconstant
      have hliteral : ∀ p ∈ constants.entries, standard.constants.get? p.1 = some (.constant p.1 p.1) := by decide
      have hmem := Dialect.mem_of_get? h
      have := hliteral _ hmem
      rw [hconstant] at this
      cases this
      exact writes_constant _ hmem
    · cases h
  | .symbol _, _, h => (writes_reference h).1.loosen (by decide)
  | .string contents, _, rfl => (Writes.string contents).loosen (by decide)

end Target
end QuasiScript
