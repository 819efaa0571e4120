import QuasiScript.Dialect

/-!
# Expressions of the target language

The trees of target expressions and the grammar that derives them from lexemes, level by level, with the binary
operators associating to the left (`Derives`). The grammar is read by a machine that takes one lexeme at a time and
keeps what is open on a stack: it settles pending operators as soon as a lexeme comes that binds no tighter. Every
derivation is followed by the machine (`outcome_of_derives`), so lexemes have one tree at most (`Derives.unique`).
-/
namespace QuasiScript
namespace Target

inductive BinaryOp where
  | or
  | and
  | equal
  | unequal
  | less
  | greater
  | atMost
  | atLeast
  | add
  | sub
  | mul
  | div
  | rem
deriving DecidableEq

inductive UnaryOp where
  | minus
  | plus
  | not
  | typeOf
deriving DecidableEq

/-- Expressions. A number is known by its spelling. -/
inductive Expr where
  | name (s : String)
  | number (spelling : String)
  | string (contents : String)
  | boolean (b : Bool)
  | null
  | array (elements : List Expr)
  | call (callee : Expr) (args : List Expr)
  | member (e : Expr) (field : String)
  | unary (op : UnaryOp) (e : Expr)
  | binary (op : BinaryOp) (left right : Expr)

inductive Sign where
  | openParen
  | closeParen
  | openBracket
  | closeBracket
  | dot
  | comma
  | not
  | binary (op : BinaryOp)
  /-- Punctuation that the expressions here do not use. -/
  | other
deriving DecidableEq

inductive Lexeme where
  | word (s : String)
  | number (spelling : String)
  | string (contents : String)
  | sign (s : Sign)
deriving DecidableEq

/-! ## The grammar -/

/-- How tight a binary operator binds. Unary operators have level 6, and operands level 7. -/
def BinaryOp.level : BinaryOp → Nat
  | .or => 0
  | .and => 1
  | .equal | .unequal => 2
  | .less | .greater | .atMost | .atLeast => 3
  | .add | .sub => 4
  | .mul | .div | .rem => 5

theorem BinaryOp.level_le (op : BinaryOp) : op.level ≤ 5 := by cases op <;> decide

def UnaryOp.lexeme : UnaryOp → Lexeme
  | .minus => .sign (.binary .sub)
  | .plus => .sign (.binary .add)
  | .not => .sign .not
  | .typeOf => .word "typeof"

def UnaryOp.ofLexeme? : Lexeme → Option UnaryOp
  | .sign (.binary .sub) => some .minus
  | .sign (.binary .add) => some .plus
  | .sign .not => some .not
  | .word s => if s = "typeof" then some .typeOf else none
  | _ => none

@[simp] theorem UnaryOp.ofLexeme?_lexeme (op : UnaryOp) : ofLexeme? op.lexeme = some op := by cases op <;> rfl

/-- The operand that a single lexeme is. A word that the language keeps for itself is no name. -/
def Expr.ofLexeme? : Lexeme → Option Expr
  | .number s => some (.number s)
  | .string s => some (.string s)
  | .word s =>
    if s = "true" then some (.boolean true)
    else if s = "false" then some (.boolean false)
    else if s = "null" then some .null
    else if Dialect.standard.isReserved s then none
    else some (.name s)
  | .sign _ => none

def separated (items : List (List Lexeme)) : List Lexeme := [.sign .comma].intercalate items

/-- **The grammar of expressions**: what lexemes are an expression of a level or tighter. -/
inductive Derives : Nat → List Lexeme → Expr → Prop where
  | tighter {l : Nat} {ts : List Lexeme} {e : Expr} : Derives (l + 1) ts e → Derives l ts e
  | binary {ts us : List Lexeme} {a b : Expr} (op : BinaryOp) : Derives op.level ts a → Derives (op.level + 1) us b →
      Derives op.level (ts ++ .sign (.binary op) :: us) (.binary op a b)
  | unary {ts : List Lexeme} {e : Expr} (op : UnaryOp) : Derives 6 ts e → Derives 6 (op.lexeme :: ts) (.unary op e)
  | member {ts : List Lexeme} {e : Expr} (s : String) : Derives 7 ts e →
      Derives 7 (ts ++ [.sign .dot, .word s]) (.member e s)
  | call {ts : List Lexeme} {f : Expr} (args : List (List Lexeme × Expr)) : Derives 7 ts f →
      (∀ a ∈ args, Derives 0 a.1 a.2) →
      Derives 7 (ts ++ .sign .openParen :: (separated (args.map Prod.fst) ++ [.sign .closeParen]))
        (.call f (args.map Prod.snd))
  | array (items : List (List Lexeme × Expr)) : (∀ a ∈ items, Derives 0 a.1 a.2) →
      Derives 7 (.sign .openBracket :: (separated (items.map Prod.fst) ++ [.sign .closeBracket]))
        (.array (items.map Prod.snd))
  | paren {ts : List Lexeme} {e : Expr} : Derives 0 ts e →
      Derives 7 (.sign .openParen :: (ts ++ [.sign .closeParen])) e
  | atom {t : Lexeme} {e : Expr} : Expr.ofLexeme? t = some e → Derives 7 [t] e

/-- Whatever binds tighter will do where a level is asked for. -/
theorem Derives.loosen {ts : List Lexeme} {e : Expr} {l k : Nat} (h : Derives k ts e) (hl : l ≤ k) :
    Derives l ts e := by
  induction hl with
  | refl => exact h
  | step _ ih => exact ih h.tighter

/-! ## The machine -/

inductive Open where
  | binary (op : BinaryOp) (left : Expr)
  | unary (op : UnaryOp)
  | member (e : Expr)
  | paren
  /-- The items so far of an array, or of the arguments of a callee. -/
  | items (callee : Option Expr) (before : List Expr)

/-- What is open, innermost first, and the operand that has just been read. -/
abbrev State : Type := List Open × Option Expr

def reduce (l : Nat) : List Open → Expr → List Open × Expr
  | .binary op a :: st, e => if l ≤ op.level then reduce l st (.binary op a e) else (.binary op a :: st, e)
  | .unary op :: st, e => reduce l st (.unary op e)
  | st, e => (st, e)

def Expr.ofItems : Option Expr → List Expr → Expr
  | none, es => .array es
  | some f, es => .call f es

def itemsEnd : Option Expr → Sign
  | none => .closeBracket
  | some _ => .closeParen

def Sign.bound? : Sign → Option Nat
  | .binary op => some op.level
  | .comma | .closeParen | .closeBracket => some 0
  | _ => none

def settle : Sign → List Open × Expr → Option State
  | .binary op, (st, e) => some (.binary op e :: st, none)
  | .closeParen, (.paren :: st, e) => some (st, some e)
  | .comma, (.items f es :: st, e) => some (.items f (es ++ [e]) :: st, none)
  | s, (.items f es :: st, e) => if s = itemsEnd f then some (st, some (.ofItems f (es ++ [e]))) else none
  | _, _ => none

def after (s : Sign) (st : List Open) (e : Expr) : Option State :=
  match s with
  | .dot => some (.member e :: st, none)
  | .openParen => some (.items (some e) [] :: st, none)
  | s => s.bound?.bind fun l => settle s (reduce l st e)

def before (t : Lexeme) (st : List Open) : Option State :=
  match UnaryOp.ofLexeme? t, Expr.ofLexeme? t with
  | some op, _ => some (.unary op :: st, none)
  | none, some e => some (st, some e)
  | none, none =>
    match t, st with
    | .sign .openParen, st => some (.paren :: st, none)
    | .sign .openBracket, st => some (.items none [] :: st, none)
    | .sign s, .items f [] :: st => if s = itemsEnd f then some (st, some (.ofItems f [])) else none
    | _, _ => none

def step (t : Lexeme) : State → Option State
  | (st, some e) =>
    match t with
    | .sign s => after s st e
    | _ => none
  | (.member e :: st, none) =>
    match t with
    | .word s => some (st, some (.member e s))
    | _ => none
  | (st, none) => before t st

def finish : State → Option Expr
  | (st, some e) =>
    match reduce 0 st e with
    | ([], e) => some e
    | _ => none
  | (_, none) => none

def outcome : List Lexeme → State → Option Expr
  | [], s => finish s
  | t :: ts, s => (step t s).bind (outcome ts)

theorem outcome_cons {t : Lexeme} {s s' : State} (h : step t s = some s') (ts : List Lexeme) :
    outcome (t :: ts) s = outcome ts s' := by
  rw [outcome, h, Option.bind_some]

/-! ## The machine follows every derivation -/

/-- Where an expression of a level may begin: nothing on top of the stack binds as tight as its operators. -/
def Fits (l : Nat) : List Open → Prop
  | .binary op _ :: _ => op.level < l
  | .unary _ :: _ => 6 ≤ l
  | .member _ :: _ => False
  | _ => True

/-- What may follow an expression of a level: nothing that binds tighter. -/
def Follow (l : Nat) : List Lexeme → Prop
  | [] => True
  | .sign s :: _ => (∃ k ∈ s.bound?, k ≤ l) ∨ (7 ≤ l ∧ (s = .dot ∨ s = .openParen))
  | _ => False

theorem Fits.tighter {l : Nat} : ∀ {st : List Open}, Fits l st → Fits (l + 1) st
  | [], _ => trivial
  | .binary _ _ :: _, h => Nat.lt_succ_of_lt h
  | .unary _ :: _, h => Nat.le_succ_of_le h
  | .paren :: _, _ => trivial
  | .items _ _ :: _, _ => trivial

theorem Follow.tighter {l : Nat} : ∀ {ts : List Lexeme}, Follow l ts → Follow (l + 1) ts
  | [], _ => trivial
  | .sign _ :: _, h => by
    rcases h with ⟨k, hk, hl⟩ | ⟨hl, hs⟩
    · exact .inl ⟨k, hk, Nat.le_succ_of_le hl⟩
    · exact .inr ⟨Nat.le_succ_of_le hl, hs⟩

theorem reduce_of_fits {op : BinaryOp} (e : Expr) : ∀ {st : List Open}, Fits op.level st →
    reduce op.level st e = (st, e)
  | [], _ => rfl
  | .binary op' a :: st, h => by
    rw [reduce, if_neg (Nat.not_le_of_lt h)]
  | .unary _ :: _, h => by
    have := op.level_le
    have : 6 ≤ op.level := h
    omega
  | .paren :: _, _ => rfl
  | .items _ _ :: _, _ => rfl

/-- **What follows settles a pending operator**: it is as if its operand had been complete. -/
theorem outcome_settled {l : Nat} {frame : Open} {e e' : Expr} {st : List Open}
    (h : ∀ k ≤ l, reduce k (frame :: st) e = reduce k st e') (hl : l < 7) :
    ∀ {rest : List Lexeme}, Follow l rest → outcome rest (frame :: st, some e) = outcome rest (st, some e')
  | [], _ => by simp only [outcome, finish, h 0 (Nat.zero_le l)]
  | .sign s :: rest, hf => by
    rcases hf with ⟨k, hk, hkl⟩ | ⟨h7, -⟩
    · have hstep : ∀ st e, step (.sign s) (st, some e) = settle s (reduce k st e) := by
        intro st e
        cases s <;> simp_all [step, after, Sign.bound?]
      simp only [outcome, hstep, h k hkl]
    · omega

/-- The machine reads an expression of a level wherever one may begin, before whatever may follow. -/
def Followed (l : Nat) (ts : List Lexeme) (e : Expr) : Prop :=
  ∀ (st : List Open) (rest : List Lexeme), Fits l st → Follow l rest →
    outcome (ts ++ rest) (st, none) = outcome rest (st, some e)

theorem outcome_items (f : Option Expr) (st : List Open) (rest : List Lexeme) :
    ∀ (items : List (List Lexeme × Expr)) (done : List Expr), (∀ a ∈ items, Followed 0 a.1 a.2) →
      (items = [] → done = []) →
      outcome (separated (items.map Prod.fst) ++ .sign (itemsEnd f) :: rest) (.items f done :: st, none) =
        outcome rest (st, some (.ofItems f (done ++ items.map Prod.snd)))
  | [], done, _, hdone => by
    rw [hdone rfl]
    refine outcome_cons ?_ rest
    cases f <;> rfl
  | [a], done, h, _ => by
    have hend : Follow 0 (.sign (itemsEnd f) :: rest) := .inl ⟨0, by cases f <;> rfl, Nat.le_refl 0⟩
    have hsep : separated ([a].map Prod.fst) = a.1 := by simp [separated]
    rw [hsep, h a (by simp) (.items f done :: st) _ trivial hend]
    refine outcome_cons ?_ rest
    cases f <;> rfl
  | a :: b :: items, done, h, _ => by
    have hcomma : Follow 0 (.sign .comma :: (separated ((b :: items).map Prod.fst) ++ .sign (itemsEnd f) :: rest)) :=
      .inl ⟨0, rfl, Nat.le_refl 0⟩
    have hsep : separated ((a :: b :: items).map Prod.fst) =
        a.1 ++ .sign .comma :: separated ((b :: items).map Prod.fst) := by
      simp [separated]
    have hstep : step (.sign .comma) (.items f done :: st, some a.2) =
        some (.items f (done ++ [a.2]) :: st, none) := rfl
    rw [hsep, List.append_assoc, List.cons_append, h a (by simp) (.items f done :: st) _ trivial hcomma,
      outcome_cons hstep,
      outcome_items f st rest (b :: items) (done ++ [a.2]) (fun c hc => h c (by simp [hc])) (by simp)]
    simp

theorem before_of_fits {l : Nat} {st : List Open} (h : Fits l st) (t : Lexeme) : step t (st, none) = before t st := by
  rcases st with _ | ⟨frame, st⟩
  · rfl
  · cases frame with
    | member e => exact h.elim
    | binary | unary | paren | items => rfl

namespace Followed
variable {l : Nat} {ts us : List Lexeme} {a b e : Expr}

theorem tighter (h : Followed (l + 1) ts e) : Followed l ts e := by
  intro st rest hst hrest
  exact h st rest hst.tighter hrest.tighter

/-- The operator waits on the stack while its right operand is read, and what follows that settles it. -/
theorem binary (op : BinaryOp) (ha : Followed op.level ts a) (hb : Followed (op.level + 1) us b) :
    Followed op.level (ts ++ .sign (.binary op) :: us) (.binary op a b) := by
  intro st rest hst hrest
  have hsign : Follow op.level (.sign (.binary op) :: (us ++ rest)) := .inl ⟨op.level, rfl, Nat.le_refl _⟩
  have hstep : step (.sign (.binary op)) (st, some a) = some (.binary op a :: st, none) := by
    show (some op.level).bind (fun l => settle (.binary op) (reduce l st a)) = _
    rw [Option.bind_some, reduce_of_fits a hst]
    rfl
  have hsettle : ∀ k ≤ op.level, reduce k (.binary op a :: st) b = reduce k st (.binary op a b) := by
    intro k hk
    rw [reduce, if_pos hk]
  have hlevel := op.level_le
  rw [List.append_assoc, List.cons_append, ha st _ hst hsign, outcome_cons hstep,
    hb (.binary op a :: st) rest (Nat.lt_succ_self op.level) hrest.tighter]
  exact outcome_settled hsettle (by omega) hrest

theorem unary (op : UnaryOp) (h : Followed 6 ts e) : Followed 6 (op.lexeme :: ts) (.unary op e) := by
  intro st rest hst hrest
  have hstep : step op.lexeme (st, none) = some (.unary op :: st, none) := by
    rw [before_of_fits hst]
    simp only [before, UnaryOp.ofLexeme?_lexeme]
  have hsettle : ∀ k ≤ 6, reduce k (.unary op :: st) e = reduce k st (.unary op e) := fun _ _ => rfl
  rw [List.cons_append, outcome_cons hstep, h (.unary op :: st) rest (Nat.le_refl 6) hrest]
  exact outcome_settled hsettle (by omega) hrest

theorem paren (h : Followed 0 ts e) : Followed 7 (.sign .openParen :: (ts ++ [.sign .closeParen])) e := by
  intro st rest hst _
  have hstep : step (.sign .openParen) (st, none) = some (.paren :: st, none) := by
    rw [before_of_fits hst]
    rfl
  have hclose : Follow 0 (.sign .closeParen :: rest) := .inl ⟨0, rfl, Nat.le_refl 0⟩
  rw [List.cons_append, outcome_cons hstep, List.append_assoc, List.singleton_append,
    h (.paren :: st) _ trivial hclose]
  rfl

theorem atom {t : Lexeme} (ht : Expr.ofLexeme? t = some e) : Followed 7 [t] e := by
  intro st rest hst _
  have hunary : UnaryOp.ofLexeme? t = none := by
    cases t with
    | word s =>
      by_cases hs : s = "typeof"
      · subst hs
        cases ht
      · simp [UnaryOp.ofLexeme?, hs]
    | sign s => cases ht
    | number | string => rfl
  have hstep : step t (st, none) = some (st, some e) := by
    rw [before_of_fits hst]
    simp only [before, hunary, ht]
  exact outcome_cons hstep rest

end Followed

/-- **Every derivation is followed by the machine.** -/
theorem outcome_of_derives {l : Nat} {ts : List Lexeme} {e : Expr} (h : Derives l ts e) : Followed l ts e := by
  induction h with
  | tighter _ ih => exact ih.tighter
  | binary op _ _ iha ihb => exact iha.binary op ihb
  | unary op _ ih => exact ih.unary op
  | @member ts e s _ ih =>
    intro st rest hst _
    have hdot : Follow 7 (.sign .dot :: .word s :: rest) := .inr ⟨Nat.le_refl 7, .inl rfl⟩
    rw [List.append_assoc, List.cons_append, List.singleton_append, ih st _ hst hdot]
    rfl
  | @call ts f args _ _ ihf ih =>
    intro st rest hst _
    have hopen : Follow 7 (.sign .openParen :: (separated (args.map Prod.fst) ++ .sign .closeParen :: rest)) :=
      .inr ⟨Nat.le_refl 7, .inr rfl⟩
    rw [List.append_assoc, List.cons_append, List.append_assoc, List.singleton_append, ihf st _ hst hopen]
    exact outcome_items (some f) st rest args [] ih fun _ => rfl
  | array items _ ih =>
    intro st rest hst _
    have hstep : step (.sign .openBracket) (st, none) = some (.items none [] :: st, none) := by
      rw [before_of_fits hst]
      rfl
    rw [List.cons_append, outcome_cons hstep, List.append_assoc, List.singleton_append]
    exact outcome_items none st rest items [] ih fun _ => rfl
  | paren _ ih => exact ih.paren
  | atom ht => exact .atom ht

/-- **Lexemes have at most one tree.** -/
theorem Derives.unique {ts : List Lexeme} {e e' : Expr} (h : Derives 0 ts e) (h' : Derives 0 ts e') : e = e' := by
  have hrun := outcome_of_derives h [] [] trivial trivial
  have hrun' := outcome_of_derives h' [] [] trivial trivial
  exact Option.some.inj (hrun.symm.trans hrun')

end Target
end QuasiScript
