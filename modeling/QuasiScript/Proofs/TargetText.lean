import QuasiScript.Proofs.TargetLexemes

/-!
# Texts that are read as expressions

A text parses as an expression if its lexemes derive it (`Parses`), and it parses as one expression at most
(`Parses.unique`). To put texts together, a text writes an expression of a level if its lexemes derive it wherever it
stands, before anything that may follow an operand (`Writes`). There is one lemma for each way in which a text is built.
-/
namespace QuasiScript
namespace Target

/-- **A text is read as an expression.** -/
def Parses (A : Alphabet) (text : String) (e : Expr) : Prop := ∃ ts, Lexes A text.toList ts ∧ Derives 0 ts e

variable {A : Alphabet}

theorem Parses.unique {text : String} {e e' : Expr} (h : Parses A text e) (h' : Parses A text e') : e = e' := by
  obtain ⟨ts, hts, he⟩ := h
  obtain ⟨us, hus, he'⟩ := h'
  rw [hus.unique hts] at he'
  exact he.unique he'

/-- The text is an expression of a level wherever it stands. It does not begin as if it prolonged a sign before it. -/
structure Writes (A : Alphabet) (l : Nat) (text : List Char) (e : Expr) : Prop where
  lexes : ∃ ts, Derives l ts e ∧ ∀ rest us, Ends rest → Lexes A rest us → Lexes A (text ++ rest) (ts ++ us)
  head : ∃ c ∈ text.head?, c ≠ '='

namespace Writes

theorem parses {text : String} {e : Expr} (h : Writes A 0 text.toList e) : Parses A text e := by
  obtain ⟨ts, hd, hl⟩ := h.lexes
  have hnil := hl [] [] (by simp [Ends]) .nil
  rw [List.append_nil, List.append_nil] at hnil
  exact ⟨ts, hnil, hd⟩

theorem loosen {l k : Nat} {text : List Char} {e : Expr} (h : Writes A k text e) (hl : l ≤ k) : Writes A l text e := by
  obtain ⟨ts, hd, hlex⟩ := h.lexes
  exact ⟨⟨ts, hd.loosen hl, hlex⟩, h.head⟩

theorem head_append {text : List Char} {p : Char → Prop} (h : ∃ c ∈ text.head?, p c) (rest : List Char) :
    ∃ c ∈ (text ++ rest).head?, p c := by
  obtain ⟨c, hc, hp⟩ := h
  cases text with
  | nil => cases hc
  | cons d text => exact ⟨c, hc, hp⟩

/-! ## Operators -/

end Writes

def BinaryOp.spelling : BinaryOp → List Char
  | .or => ['|', '|']
  | .and => ['&', '&']
  | .equal => ['=', '=', '=']
  | .unequal => ['!', '=', '=']
  | .less => ['<']
  | .greater => ['>']
  | .atMost => ['<', '=']
  | .atLeast => ['>', '=']
  | .add => ['+']
  | .sub => ['-']
  | .mul => ['*']
  | .div => ['/']
  | .rem => ['%']

theorem lexes_operator (op : BinaryOp) {rest : List Char} {ts : List Lexeme} (h : Lexes A rest ts) :
    Lexes A (op.spelling ++ ' ' :: rest) (.sign (.binary op) :: ts) := by
  have hblank : Lexes A (' ' :: rest) ts := .blank rfl h
  cases op <;> exact lexes_sign (by decide) rfl hblank

namespace Writes

theorem binary (op : BinaryOp) {s t : List Char} {a b : Expr} (hs : Writes A op.level s a)
    (ht : Writes A (op.level + 1) t b) : Writes A op.level (s ++ (' ' :: op.spelling ++ [' ']) ++ t) (.binary op a b) := by
  obtain ⟨ts, hds, hls⟩ := hs.lexes
  obtain ⟨us, hdt, hlt⟩ := ht.lexes
  refine ⟨⟨_, .binary op hds hdt, fun rest vs hrest hvs => ?_⟩, ?_⟩
  · have hop := lexes_operator op (hlt rest vs hrest hvs)
    have := hls (' ' :: (op.spelling ++ ' ' :: (t ++ rest))) _ (by simp [Ends]) (.blank rfl hop)
    simpa using this
  · rw [List.append_assoc]
    exact head_append hs.head _

theorem paren {text : List Char} {e : Expr} (h : Writes A 0 text e) : Writes A 7 ('(' :: (text ++ [')'])) e := by
  obtain ⟨ts, hd, hl⟩ := h.lexes
  refine ⟨⟨_, .paren hd, fun rest us hrest hus => ?_⟩, ⟨'(', rfl, by decide⟩⟩
  have hclose : Lexes A (')' :: rest) (.sign .closeParen :: us) := lexes_sign (by decide) rfl hus
  have hopen := hl (')' :: rest) _ (by simp [Ends]) hclose
  have := lexes_sign (s := .openParen) (c := '(') (by decide) rfl hopen
  simpa using this

theorem blank {l : Nat} {text : List Char} {e : Expr} (h : Writes A l text e) : Writes A l (' ' :: text) e := by
  obtain ⟨ts, hd, hl⟩ := h.lexes
  exact ⟨⟨ts, hd, fun rest us hrest hus => .blank rfl (hl rest us hrest hus)⟩, ⟨' ', rfl, by decide⟩⟩

/-- A sign before an operand, provided that it is read as that sign there. -/
theorem unary (op : UnaryOp) {c : Char} {s : Sign} {text : List Char} {e : Expr} (h : Writes A 6 text e)
    (hop : op.lexeme = .sign s) (hc : c ∈ ['-', '+', '!'])
    (hs : ∀ rest, readSign (c :: (text ++ rest)) = some (.sign s, text ++ rest)) :
    Writes A 6 (c :: text) (.unary op e) := by
  have hc' : ∀ c ∈ ['-', '+', '!'], c ∈ signStarts ∧ c ≠ '=' := by decide
  obtain ⟨ts, hd, hl⟩ := h.lexes
  refine ⟨⟨_, .unary op hd, fun rest us hrest hus => ?_⟩, ⟨c, rfl, (hc' c hc).2⟩⟩
  rw [hop]
  exact lexes_sign (hc' c hc).1 (hs rest) (hl rest us hrest hus)

theorem minus {text : List Char} {e : Expr} (h : Writes A 6 text e) (hm : ∃ c ∈ text.head?, c ≠ '-') :
    Writes A 6 ('-' :: text) (.unary .minus e) := by
  obtain ⟨c, hc, hm⟩ := hm
  obtain ⟨c', hc', he⟩ := h.head
  cases text with
  | nil => cases hc
  | cons d text =>
    cases hc
    cases hc'
    exact h.unary .minus rfl (by decide) fun rest => by
      simp [readSign, signs, List.isPrefixOf, hm.symm, he.symm]

theorem plus {text : List Char} {e : Expr} (h : Writes A 6 text e) (hp : ∃ c ∈ text.head?, c ≠ '+') :
    Writes A 6 ('+' :: text) (.unary .plus e) := by
  obtain ⟨c, hc, hp⟩ := hp
  obtain ⟨c', hc', he⟩ := h.head
  cases text with
  | nil => cases hc
  | cons d text =>
    cases hc
    cases hc'
    exact h.unary .plus rfl (by decide) fun rest => by
      simp [readSign, signs, List.isPrefixOf, hp.symm, he.symm]

theorem not {text : List Char} {e : Expr} (h : Writes A 6 text e) : Writes A 6 ('!' :: text) (.unary .not e) := by
  obtain ⟨c, hc, he⟩ := h.head
  cases text with
  | nil => cases hc
  | cons d text =>
    cases hc
    exact h.unary .not rfl (by decide) fun rest => by
      simp [readSign, signs, List.isPrefixOf, he.symm]

theorem typeOf {text : List Char} {e : Expr} (h : Writes A 6 text e) :
    Writes A 6 (['t', 'y', 'p', 'e', 'o', 'f'] ++ ' ' :: text) (.unary .typeOf e) := by
  obtain ⟨ts, hd, hl⟩ := h.lexes
  refine ⟨⟨_, .unary .typeOf hd, fun rest us hrest hus => ?_⟩, ⟨'t', rfl, by decide⟩⟩
  rw [List.append_assoc]
  have hblank : ∀ c ∈ (' ' :: (text ++ rest)).head?, A.continues c = false := by
    intro c hc
    cases hc
    exact A.continues_pattern _ (by decide) (by decide)
  have hword : A.isIdentifierName ['t', 'y', 'p', 'e', 'o', 'f'] = true := by
    have hname := A.isIdentifierName_iff (s := "typeof") (by decide)
    rw [show "typeof".toList = ['t', 'y', 'p', 'e', 'o', 'f'] from rfl] at hname
    exact hname.2 (by decide)
  exact lexes_word hword hblank (.blank rfl (hl rest us hrest hus))

/-- Operands joined by an operator, from the left. -/
theorem join (op : BinaryOp) {texts : List (List Char)} {es : List Expr} (h : List.Forall₂ (Writes A 6) texts es) :
    ∀ {s : List Char} {a : Expr}, Writes A op.level s a →
      Writes A op.level ((' ' :: op.spelling ++ [' ']).intercalate (s :: texts)) (es.foldl (.binary op) a) := by
  have hlevel := op.level_le
  induction h with
  | nil =>
    intro s a hs
    simpa using hs
  | @cons t b texts es ht _ ih =>
    intro s a hs
    have := ih (hs.binary op (ht.loosen (by omega)))
    cases texts with
    | nil => simpa using this
    | cons u texts => simpa using this

/-! ## Arrays and calls -/

/-- Texts with commas between them are items. -/
theorem items {texts : List (List Char)} {es : List Expr} (h : List.Forall₂ (Writes A 0) texts es) :
    ∃ items : List (List Lexeme × Expr), items.map Prod.snd = es ∧ (∀ a ∈ items, Derives 0 a.1 a.2) ∧
      ∀ rest us, Ends rest → Lexes A rest us →
        Lexes A ([',', ' '].intercalate texts ++ rest) (separated (items.map Prod.fst) ++ us) := by
  induction h with
  | nil => exact ⟨[], rfl, by simp, fun _ _ _ h => h⟩
  | @cons t e texts es ht hts ih =>
    obtain ⟨ts, hd, hl⟩ := ht.lexes
    obtain ⟨items, hitems, hds, hls⟩ := ih
    refine ⟨(ts, e) :: items, by rw [List.map_cons, hitems], List.forall_mem_cons.2 ⟨hd, hds⟩, ?_⟩
    intro rest us hrest hus
    cases hts with
    | nil =>
      rw [List.map_eq_nil_iff] at hitems
      subst hitems
      simpa [separated] using hl rest us hrest hus
    | @cons t' e' texts es _ _ =>
      obtain ⟨a, items, rfl⟩ : ∃ a as, items = a :: as := by
        cases items with
        | nil => cases hitems
        | cons a as => exact ⟨a, as, rfl⟩
      have hcomma : Lexes A (',' :: ' ' :: ([',', ' '].intercalate (t' :: texts) ++ rest)) (.sign .comma :: _) :=
        lexes_sign (by decide) rfl (.blank rfl (hls rest us hrest hus))
      have := hl _ _ (by simp [Ends]) hcomma
      simpa [separated] using this

theorem array {texts : List (List Char)} {es : List Expr} (h : List.Forall₂ (Writes A 0) texts es) :
    Writes A 7 ('[' :: ([',', ' '].intercalate texts ++ [']'])) (.array es) := by
  obtain ⟨its, rfl, hd, hl⟩ := items h
  refine ⟨⟨_, .array its hd, fun rest us hrest hus => ?_⟩, ⟨'[', rfl, by decide⟩⟩
  have hclose : Lexes A (']' :: rest) (.sign .closeBracket :: us) := lexes_sign (by decide) rfl hus
  have := lexes_sign (s := .openBracket) (c := '[') (by decide) rfl (hl _ _ (by simp [Ends]) hclose)
  simpa using this

theorem call {callee : List Char} {f : Expr} (hf : Writes A 7 callee f) {texts : List (List Char)} {es : List Expr}
    (h : List.Forall₂ (Writes A 0) texts es) :
    Writes A 7 (callee ++ '(' :: ([',', ' '].intercalate texts ++ [')'])) (.call f es) := by
  obtain ⟨ts, hdf, hlf⟩ := hf.lexes
  obtain ⟨its, rfl, hd, hl⟩ := items h
  refine ⟨⟨_, .call its hdf hd, fun rest us hrest hus => ?_⟩, head_append hf.head _⟩
  have hclose : Lexes A (')' :: rest) (.sign .closeParen :: us) := lexes_sign (by decide) rfl hus
  have hopen := lexes_sign (s := .openParen) (c := '(') (by decide) rfl (hl _ _ (by simp [Ends]) hclose)
  have := hlf _ _ (by simp [Ends]) hopen
  simpa using this

/-! ## Operands of one lexeme -/

theorem number {text : List Char} (h : isMagnitude text = true) : Writes A 7 text (.number (String.ofList text)) := by
  refine ⟨⟨[_], .atom rfl, fun rest us hrest hus => lexes_number h hrest hus⟩, ?_⟩
  cases text with
  | nil => exact absurd h (by decide)
  | cons c cs =>
    refine ⟨c, rfl, ?_⟩
    rintro rfl
    rcases isMagnitude_cons h with h | ⟨h, -⟩ <;> exact absurd h (by decide)

theorem string (s : String) : Writes A 7 (quote s).toList (.string s) := by
  refine ⟨⟨[_], .atom rfl, fun rest us _ hus => lexes_quote s hus⟩, ⟨'"', ?_, by decide⟩⟩
  simp [quote]

theorem word {w : List Char} {e : Expr} (hw : A.isIdentifierName w = true)
    (he : Expr.ofLexeme? (.word (String.ofList w)) = some e) : Writes A 7 w e := by
  refine ⟨⟨[_], .atom he, fun rest us hrest hus => lexes_word hw (continues_of_ends hrest) hus⟩, ?_⟩
  obtain ⟨c, cs, rfl, hc, -⟩ := A.isIdentifierName_eq_true_iff.1 hw
  refine ⟨c, rfl, ?_⟩
  rintro rfl
  rw [A.starts_pattern (by decide) (by decide)] at hc
  cases hc

end Writes
end Target
end QuasiScript
