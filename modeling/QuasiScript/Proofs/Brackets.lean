import QuasiScript.Proofs.Atoms
import QuasiScript.Target
import QuasiScript.Text.Padded

/-!
# Brackets and lines of a text

A scan of a text keeps the brackets that are open and skips string literals (`Brackets.scan`). A text is balanced if
the scan ends as it began, and laid out if every line is indented by two spaces for each brace open before it.

`Code k commas` is a grammar of texts at depth `k` that have both properties wherever `k` braces are open
(`scanWith_code`, `laidFrom_code`). Its lines and braces follow one another as in the grammar of blocks, so that a text
is in it by construction. Without `commas` there are no commas outside of all brackets.
-/
namespace QuasiScript
open Dialect (standard)

namespace Brackets

/-! ## Scanning -/

inductive Mode where
  | code
  | string
  /-- After a backslash in a string. -/
  | escaped
deriving DecidableEq

/-- What a scan is in the middle of, and the open brackets, the innermost first. -/
structure State where
  mode : Mode
  opened : List Char
deriving DecidableEq

def closing? (c : Char) : Option Char := [('(', ')'), ('[', ']'), ('\x7b', '\x7d')].lookup c

def isClosing (c : Char) : Bool := [')', ']', '\x7d'].contains c

/-- One character further. A bracket that closes nothing, or another bracket than the last one, ends the scan. -/
def step (s : State) (c : Char) : Option State :=
  match s.mode with
  | .string => some { s with mode := if c = '"' then .code else if c = '\\' then .escaped else .string }
  | .escaped => some { s with mode := .string }
  | .code =>
    if c = '"' then some { s with mode := .string }
    else if (closing? c).isSome then some { s with opened := c :: s.opened }
    else if isClosing c then
      match s.opened with
      | [] => none
      | o :: rest => if closing? o = some c then some { s with opened := rest } else none
    else some s

def scan (s : State) (text : List Char) : Option State := text.foldlM step s

/-- **The brackets of a text match**, and no string is left open. -/
def Balanced (text : List Char) : Prop := scan ⟨.code, []⟩ text = some ⟨.code, []⟩

instance (text : List Char) : Decidable (Balanced text) := inferInstanceAs (Decidable (_ = _))

/-- How a line begins where some brackets are open: with two spaces for each open brace, but for one that the line
closes first, and then with another character. -/
def LineBegins (opened line : List Char) : Prop :=
  ∃ k c more, line = List.replicate (2 * k) ' ' ++ c :: more ∧ c ≠ ' ' ∧ c ≠ '\n' ∧
    opened.count '\x7b' = k + if c = '\x7d' then 1 else 0

/-- Every line of a text begins as it should. The text itself begins a line only if `start` is set. -/
def LaidFrom (start : Bool) (s : State) (text : List Char) : Prop :=
  ∀ before rest, text = before ++ rest → rest ≠ [] → (before = [] ∧ start = true ∨ before.getLast? = some '\n') →
    ∃ opened, scan s before = some ⟨.code, opened⟩ ∧ LineBegins opened rest

/-- **The lines of a text follow its nesting.** -/
def LaidOut (text : List Char) : Prop := LaidFrom true ⟨.code, []⟩ text

theorem scan_append (s : State) (a b : List Char) : scan s (a ++ b) = (scan s a).bind (scan · b) :=
  List.foldlM_append

theorem LineBegins.append {opened line : List Char} (h : LineBegins opened line) (rest : List Char) :
    LineBegins opened (line ++ rest) := by
  obtain ⟨k, c, more, rfl, hc⟩ := h
  exact ⟨k, c, more ++ rest, by simp, hc⟩

section Laid
variable {start start' : Bool} {s s' : State} {a b : List Char}

/-- Texts that are laid out stay so one after the other, if the second begins a line where the first ends one. -/
theorem LaidFrom.append (ha : LaidFrom start s a) (hs : scan s a = some s') (hb : LaidFrom start' s' b)
    (hend : a = [] ∧ start = true ∨ a.getLast? = some '\n' → start' = true) : LaidFrom start s (a ++ b) := by
  intro before rest h hne hstart
  rcases List.append_eq_append_iff.1 h with ⟨more, rfl, rfl⟩ | ⟨more, rfl, rfl⟩
  · have hmore : more = [] ∧ start' = true ∨ more.getLast? = some '\n' := by
      cases more with
      | nil =>
        rw [List.append_nil] at hstart
        exact .inl ⟨rfl, hend hstart⟩
      | cons c more =>
        refine .inr (hstart.elim (fun h => absurd h.1 (by simp)) fun h => ?_)
        simpa [List.getLast?_append] using h
    obtain ⟨opened, hscan, hline⟩ := hb more rest rfl hne hmore
    refine ⟨opened, ?_, hline⟩
    rw [scan_append, hs]
    exact hscan
  · cases more with
    | nil =>
      rw [List.append_nil] at hs hend
      obtain ⟨opened, hscan, hline⟩ := hb [] b rfl (by simpa using hne) (.inl ⟨rfl, hend hstart⟩)
      obtain rfl : s' = ⟨.code, opened⟩ := by simpa [scan] using hscan
      exact ⟨opened, hs, hline⟩
    | cons c more =>
      obtain ⟨opened, hscan, hline⟩ := ha before (c :: more) rfl (by simp) hstart
      exact ⟨opened, hscan, hline.append b⟩

theorem laidFrom_of_not_mem (h : '\n' ∉ a) : LaidFrom false s a := by
  rintro before rest rfl - (⟨-, hstart⟩ | hlast)
  · cases hstart
  · exact absurd (List.mem_append_left rest (List.mem_of_getLast? hlast)) h

theorem laidFrom_singleton (c : Char) : LaidFrom false s [c] := by
  rintro before rest h hne (⟨-, hstart⟩ | hlast)
  · cases hstart
  · rcases List.singleton_eq_append_iff.1 h with ⟨rfl, -⟩ | ⟨-, rfl⟩
    · cases hlast
    · exact absurd rfl hne

/-- What begins a line as it should may begin one. -/
theorem LaidFrom.begin {opened : List Char} (h : LaidFrom false ⟨.code, opened⟩ a) (hline : LineBegins opened a) :
    LaidFrom true ⟨.code, opened⟩ a := by
  intro before rest hcat hne hstart
  by_cases hbefore : before = []
  · subst hbefore
    rw [hcat] at hline
    exact ⟨opened, rfl, hline⟩
  · exact h before rest hcat hne (.inr (hstart.resolve_left fun h => hbefore h.1))

end Laid

/-! ## Commas -/

/-- One character further in an item, where without `commas` none may stand outside of all brackets. -/
def stepWith (commas : Bool) (s : State) (c : Char) : Option State :=
  if commas = false ∧ c = ',' ∧ s = ⟨.code, []⟩ then none else step s c

def scanWith (commas : Bool) (s : State) (text : List Char) : Option State := text.foldlM (stepWith commas) s

theorem scanWith_append (commas : Bool) (s : State) (a b : List Char) :
    scanWith commas s (a ++ b) = (scanWith commas s a).bind (scanWith commas · b) :=
  List.foldlM_append

theorem step_of_stepWith {commas : Bool} {s s' : State} {c : Char} (h : stepWith commas s c = some s') :
    step s c = some s' := by
  unfold stepWith at h
  split at h
  · cases h
  · exact h

theorem scan_of_scanWith {commas : Bool} : ∀ {text : List Char} {s s' : State}, scanWith commas s text = some s' →
    scan s text = some s'
  | [], _, _, h => h
  | c :: text, s, s', h => by
    obtain ⟨s₁, hc, htext⟩ := Option.bind_eq_some_iff.1 (show (stepWith commas s c).bind _ = _ from h)
    show (step s c).bind _ = _
    rw [step_of_stepWith hc]
    exact scan_of_scanWith htext

theorem scanWith_self {commas : Bool} {s : State} : ∀ {text : List Char},
    (∀ c ∈ text, stepWith commas s c = some s) → scanWith commas s text = some s
  | [], _ => rfl
  | c :: text, h => by
    obtain ⟨hc, htext⟩ := List.forall_mem_cons.1 h
    show (stepWith commas s c).bind _ = _
    rw [hc]
    exact scanWith_self htext

end Brackets

/-! ## String literals -/

namespace Target

theorem not_mem_hex {c : Char} (hc : c ∈ ['"', '\\', '\n']) : ∀ width n : Nat, c ∉ Text.hex width n
  | 0, _ => List.not_mem_nil
  | width + 1, n => by
    have hdigit : ∀ k < 16, ∀ c ∈ ['"', '\\', '\n'], c ≠ Text.hexDigit k := by decide
    have hmod : Text.hexDigit n = Text.hexDigit (n % 16) := by simp [Text.hexDigit]
    have hne := hdigit (n % 16) (Nat.mod_lt n (by decide)) c hc
    rw [Text.hex, List.mem_append, List.mem_singleton, hmod, not_or]
    exact ⟨not_mem_hex hc width (n / 16), hne⟩

/-- A character stands for itself, or it is escaped by a backslash and more. -/
theorem escape_cases (c : Char) :
    escape c = [c] ∧ c ∉ ['"', '\\', '\n'] ∨
      ∃ e more, escape c = '\\' :: e :: more ∧ e ≠ '\n' ∧ ∀ x ∈ ['"', '\\', '\n'], x ∉ more := by
  unfold escape
  split
  iterate 5 exact .inr ⟨_, [], rfl, by decide, by simp⟩
  rename_i hquote hslash hnewline _ _
  split
  · exact .inr ⟨'u', _, rfl, by decide, fun x hx => not_mem_hex hx 4 _⟩
  · refine .inl ⟨rfl, ?_⟩
    simp only [List.mem_cons, List.not_mem_nil, or_false, not_or]
    exact ⟨hquote, hslash, hnewline⟩

theorem newline_not_mem_quote (s : String) : '\n' ∉ (quote s).toList := by
  have hescape : ∀ c, '\n' ∉ escape c := by
    intro c
    rcases escape_cases c with ⟨he, hc⟩ | ⟨e, more, he, hne, hmore⟩
    · rw [he, List.mem_singleton]
      rintro rfl
      exact hc (by decide)
    · rw [he]
      simp [hne.symm, hmore]
  simp [quote, hescape]

end Target

namespace Brackets

theorem stepWith_of_mode {commas : Bool} {s : State} (h : s.mode ≠ .code) (c : Char) :
    stepWith commas s c = step s c := by
  refine if_neg fun hs => h ?_
  rw [hs.2.2]

theorem scanWith_escape (commas : Bool) (opened : List Char) (c : Char) :
    scanWith commas ⟨.string, opened⟩ (Target.escape c) = some ⟨.string, opened⟩ := by
  have hstring : ∀ x, x ≠ '"' → x ≠ '\\' → stepWith commas ⟨.string, opened⟩ x = some ⟨.string, opened⟩ := by
    intro x hquote hslash
    rw [stepWith_of_mode (by simp)]
    simp [step, hquote, hslash]
  rcases Target.escape_cases c with ⟨he, hc⟩ | ⟨e, more, he, -, hmore⟩
  · rw [he]
    refine scanWith_self fun x hx => ?_
    obtain rfl := List.mem_singleton.1 hx
    exact hstring x (fun h => hc (by simp [h])) (fun h => hc (by simp [h]))
  · -- the backslash and the character after it lead back into the string
    have hpair : scanWith commas ⟨.string, opened⟩ ['\\', e] = some ⟨.string, opened⟩ := by
      simp [scanWith, stepWith_of_mode, step]
    rw [he, show '\\' :: e :: more = ['\\', e] ++ more from rfl, scanWith_append, hpair]
    refine scanWith_self fun x hx => hstring x ?_ ?_
    · rintro rfl
      exact hmore _ (by decide) hx
    · rintro rfl
      exact hmore _ (by decide) hx

theorem scanWith_flatMap_escape (commas : Bool) (opened : List Char) : ∀ s : List Char,
    scanWith commas ⟨.string, opened⟩ (s.flatMap Target.escape) = some ⟨.string, opened⟩
  | [] => rfl
  | c :: s => by
    rw [List.flatMap_cons, scanWith_append, scanWith_escape, Option.bind_some, scanWith_flatMap_escape commas opened s]

theorem scanWith_quote (commas : Bool) (opened : List Char) (s : String) :
    scanWith commas ⟨.code, opened⟩ (Target.quote s).toList = some ⟨.code, opened⟩ := by
  have hcat : (Target.quote s).toList = ['"'] ++ s.toList.flatMap Target.escape ++ ['"'] := by simp [Target.quote]
  have hopen : scanWith commas ⟨.code, opened⟩ ['"'] = some ⟨.string, opened⟩ := by simp [scanWith, stepWith, step]
  have hclose : scanWith commas ⟨.string, opened⟩ ['"'] = some ⟨.code, opened⟩ := by
    simp [scanWith, stepWith_of_mode, step]
  rw [hcat, scanWith_append, scanWith_append, hopen, Option.bind_some, scanWith_flatMap_escape, Option.bind_some,
    hclose]

/-! ## A grammar of texts -/

def newline (k : Nat) : String := "\n" ++ Text.spaces (2 * k)

/-- Characters that say nothing about brackets, strings and lines. -/
def IsPlain (commas : Bool) (c : Char) : Prop :=
  c ∉ ['(', ')', '[', ']', '\x7b', '\x7d', '"', '\n'] ∧ (c = ',' → commas = true)

instance (commas : Bool) : DecidablePred (IsPlain commas) := fun _ => inferInstanceAs (Decidable (_ ∧ (_ → _)))

/-- The text begins with a character that may begin a line, and closes nothing with it. -/
def Begins (s : String) : Prop := ∃ c ∈ s.toList.head?, c ∉ [' ', '\n', '\x7d']

/-- **Texts at depth `k`**, where that many braces are open. -/
inductive Code : Nat → Bool → String → Prop
  | plain {k : Nat} {commas : Bool} {s : String} (h : ∀ c ∈ s.toList, IsPlain commas c) : Code k commas s
  | quoted {k : Nat} {commas : Bool} (s : String) : Code k commas (Target.quote s)
  | append {k : Nat} {commas : Bool} {s t : String} : Code k commas s → Code k commas t → Code k commas (s ++ t)
  | round {k : Nat} {commas : Bool} {s : String} : Code k true s → Code k commas ("(" ++ s ++ ")")
  | square {k : Nat} {commas : Bool} {s : String} : Code k true s → Code k commas ("[" ++ s ++ "]")
  | brace {k : Nat} {commas : Bool} {s : String} : Code (k + 1) true s → Code k commas ("\x7b" ++ s ++ "\x7d")
  /-- Braces, of which the last begins a line. -/
  | hanging {k : Nat} {commas : Bool} {s : String} :
      Code (k + 1) true s → Code k commas ("\x7b" ++ s ++ newline k ++ "\x7d")
  | line {k : Nat} {commas : Bool} {s : String} : Begins s → Code k commas s → Code k commas (newline k ++ s)

theorem Code.mono {k : Nat} {commas : Bool} {s : String} (h : Code k false s) : Code k commas s := by
  generalize hc : false = c at h
  induction h with
  | plain h =>
    subst hc
    exact .plain fun c hc => ⟨(h c hc).1, fun hcomma => absurd ((h c hc).2 hcomma) (by decide)⟩
  | quoted s => exact .quoted s
  | append _ _ ih ih' => exact .append (ih hc) (ih' hc)
  | round h => exact .round h
  | square h => exact .square h
  | brace h => exact .brace h
  | hanging h => exact .hanging h
  | line hb _ ih => exact .line hb (ih hc)

section Scan
variable {commas within : Bool} {k : Nat} {s : String} {opened : List Char}

theorem stepWith_plain {c : Char} (h : IsPlain commas c) (hw : commas = true → within = true ∨ opened ≠ []) :
    stepWith within ⟨.code, opened⟩ c = some ⟨.code, opened⟩ := by
  obtain ⟨hc, hcomma⟩ := h
  have hcomma : ¬ (within = false ∧ c = ',' ∧ (⟨.code, opened⟩ : State) = ⟨.code, []⟩) := by
    rintro ⟨hwithin, rfl, ho⟩
    rcases hw (hcomma rfl) with h | h
    · rw [hwithin] at h
      cases h
    · exact h (State.mk.inj ho).2
  rw [stepWith, if_neg hcomma]
  simp only [List.mem_cons, List.not_mem_nil, or_false, not_or] at hc
  obtain ⟨h₁, h₂, h₃, h₄, h₅, h₆, hquote, -⟩ := hc
  have hopen : closing? c = none := List.lookup_eq_none_iff.2 (by simp [h₁, h₃, h₅])
  simp [step, hquote, hopen, isClosing, h₂, h₄, h₆]

/-- Between a bracket and the one that closes it. -/
theorem scanWith_bracket {o c : Char} {text : List Char} (hoc : closing? o = some c)
    (h : scanWith within ⟨.code, o :: opened⟩ text = some ⟨.code, o :: opened⟩) :
    scanWith within ⟨.code, opened⟩ ([o] ++ text ++ [c]) = some ⟨.code, opened⟩ := by
  have hpairs : ∀ p ∈ [('(', ')'), ('[', ']'), ('\x7b', '\x7d')], p.1 ≠ '"' ∧ p.1 ≠ ',' ∧ p.2 ≠ '"' ∧
      closing? p.2 = none ∧ isClosing p.2 = true := by decide
  have hmem : (o, c) ∈ [('(', ')'), ('[', ']'), ('\x7b', '\x7d')] := by
    obtain ⟨before, after, he, -⟩ := List.lookup_eq_some_iff.1 hoc
    rw [he]
    simp
  obtain ⟨ho, hcomma, hc, hnone, hclosing⟩ := hpairs (o, c) hmem
  have hopen : scanWith within ⟨.code, opened⟩ [o] = some ⟨.code, o :: opened⟩ := by
    simp [scanWith, stepWith, step, ho, hcomma, hoc]
  have hclose : scanWith within ⟨.code, o :: opened⟩ [c] = some ⟨.code, opened⟩ := by
    simp [scanWith, stepWith, step, hc, hnone, hclosing, hoc]
  rw [scanWith_append, scanWith_append, hopen, Option.bind_some, h, Option.bind_some, hclose]

theorem mem_newline {c : Char} (h : c ∈ (newline k).toList) : c ∈ ['\n', ' '] := by
  simp only [newline, Text.spaces, String.toList_append, String.toList_ofList, List.mem_append, List.mem_replicate] at h
  rcases h with h | ⟨-, rfl⟩
  · exact List.mem_cons.2 (.inl (by simpa using h))
  · decide

theorem scanWith_newline (k : Nat) : scanWith within ⟨.code, opened⟩ (newline k).toList = some ⟨.code, opened⟩ := by
  refine scanWith_self fun c hc => ?_
  have hstep : ∀ c ∈ ['\n', ' '], c ≠ ',' ∧ c ≠ '"' ∧ closing? c = none ∧ isClosing c = false := by decide
  obtain ⟨hcomma, hquote, hopen, hclose⟩ := hstep c (mem_newline hc)
  simp [stepWith, step, hcomma, hquote, hopen, hclose]

/-- **A text of the grammar leaves the brackets as they were.** Its commas need brackets around them. -/
theorem scanWith_code (h : Code k commas s) (hw : commas = true → within = true ∨ opened ≠ []) :
    scanWith within ⟨.code, opened⟩ s.toList = some ⟨.code, opened⟩ := by
  induction h generalizing opened with
  | plain h => exact scanWith_self fun c hc => stepWith_plain (h c hc) hw
  | quoted s => exact scanWith_quote within opened s
  | append _ _ ih ih' => rw [String.toList_append, scanWith_append, ih hw, Option.bind_some, ih' hw]
  | round _ ih =>
    rw [String.toList_append, String.toList_append]
    exact scanWith_bracket rfl (ih fun _ => .inr (by simp))
  | square _ ih =>
    rw [String.toList_append, String.toList_append]
    exact scanWith_bracket rfl (ih fun _ => .inr (by simp))
  | brace _ ih =>
    rw [String.toList_append, String.toList_append]
    exact scanWith_bracket rfl (ih fun _ => .inr (by simp))
  | hanging _ ih =>
    rw [String.toList_append, String.toList_append, String.toList_append, List.append_assoc ("\x7b".toList)]
    refine scanWith_bracket rfl ?_
    rw [scanWith_append, ih fun _ => .inr (by simp), Option.bind_some, scanWith_newline]
  | line _ _ ih => rw [String.toList_append, scanWith_append, scanWith_newline, Option.bind_some, ih hw]

theorem scan_code (h : Code k commas s) (opened : List Char) :
    scan ⟨.code, opened⟩ s.toList = some ⟨.code, opened⟩ := by
  have hwith : scanWith true ⟨.code, opened⟩ s.toList = some ⟨.code, opened⟩ := scanWith_code h fun _ => .inl rfl
  exact scan_of_scanWith hwith

theorem getLast?_append_of {t : String} {c : Char} (s : String) (h : t.toList.getLast? = some c) :
    (s ++ t).toList.getLast? = some c := by
  rw [String.toList_append, List.getLast?_append, h, Option.some_or]

theorem getLast?_code (h : Code k commas s) : s.toList.getLast? ≠ some '\n' := by
  induction h with
  | plain h =>
    intro hlast
    exact (h _ (List.mem_of_getLast? hlast)).1 (by decide)
  | quoted s => exact fun hlast => Target.newline_not_mem_quote s (List.mem_of_getLast? hlast)
  | @append _ _ s t _ _ ih ih' =>
    cases hlast : t.toList.getLast? with
    | none =>
      rw [String.toList_append, List.getLast?_append, hlast]
      exact ih
    | some c =>
      rw [getLast?_append_of s hlast]
      exact hlast ▸ ih'
  | round _ _ =>
    rw [getLast?_append_of _ rfl]
    decide
  | square _ _ =>
    rw [getLast?_append_of _ rfl]
    decide
  | brace _ _ =>
    rw [getLast?_append_of _ rfl]
    decide
  | hanging _ _ =>
    rw [getLast?_append_of _ rfl]
    decide
  | @line k _ s hb _ ih =>
    obtain ⟨c, hc, -⟩ := hb
    cases hlast : s.toList.getLast? with
    | none =>
      rw [List.getLast?_eq_none_iff.1 hlast] at hc
      cases hc
    | some x =>
      rw [getLast?_append_of (newline k) hlast]
      exact hlast ▸ ih

end Scan

section Layout
variable {commas : Bool} {k : Nat} {s : String} {opened text : List Char}

/-- A text after a line break, where it begins the line. -/
theorem laidFrom_newline (h : LaidFrom false ⟨.code, opened⟩ text)
    (hline : LineBegins opened (List.replicate (2 * k) ' ' ++ text)) :
    LaidFrom false ⟨.code, opened⟩ ((newline k).toList ++ text) := by
  have hcat : (newline k).toList ++ text = ['\n'] ++ (List.replicate (2 * k) ' ' ++ text) := by
    simp [newline, Text.spaces]
  have hbreak : scan ⟨.code, opened⟩ ['\n'] = some ⟨.code, opened⟩ := rfl
  have hspaces : LaidFrom false ⟨.code, opened⟩ (List.replicate (2 * k) ' ') :=
    laidFrom_of_not_mem (by simp [List.mem_replicate])
  have hscan : scan ⟨.code, opened⟩ (List.replicate (2 * k) ' ') = some ⟨.code, opened⟩ := by
    have hwith : scanWith true ⟨.code, opened⟩ (List.replicate (2 * k) ' ') = some ⟨.code, opened⟩ := by
      refine scanWith_self fun c hc => ?_
      obtain rfl := List.eq_of_mem_replicate hc
      rfl
    exact scan_of_scanWith hwith
  have hrest : LaidFrom false ⟨.code, opened⟩ (List.replicate (2 * k) ' ' ++ text) := by
    refine hspaces.append hscan h fun hend => ?_
    rcases hend with ⟨-, hstart⟩ | hlast
    · exact hstart
    · exact absurd (List.eq_of_mem_replicate (List.mem_of_getLast? hlast)) (by decide)
  rw [hcat]
  exact (laidFrom_singleton '\n').append hbreak (hrest.begin hline) fun _ => rfl

/-- A text after an open bracket. -/
theorem laidFrom_open {o : Char} (ho : o ≠ '\n') (hopen : scan ⟨.code, opened⟩ [o] = some ⟨.code, o :: opened⟩)
    (h : LaidFrom false ⟨.code, o :: opened⟩ text) : LaidFrom false ⟨.code, opened⟩ ([o] ++ text) := by
  refine (laidFrom_singleton o).append hopen h fun hend => ?_
  rcases hend with ⟨-, hstart⟩ | hlast
  · exact hstart
  · exact absurd (Option.some.inj hlast) ho

/-- **A text of the grammar is laid out** where as many braces are open as its depth says. -/
theorem laidFrom_code (h : Code k commas s) (hk : opened.count '\x7b' = k) :
    LaidFrom false ⟨.code, opened⟩ s.toList := by
  have happend : ∀ {k : Nat} {commas : Bool} {s : String} {opened text : List Char}, Code k commas s →
      LaidFrom false ⟨.code, opened⟩ s.toList → LaidFrom false ⟨.code, opened⟩ text →
      LaidFrom false ⟨.code, opened⟩ (s.toList ++ text) := by
    intro k commas s opened text hs h h'
    exact h.append (scan_code hs opened) h' fun hend => hend.elim And.right fun hlast => absurd hlast (getLast?_code hs)
  induction h generalizing opened with
  | plain h => exact laidFrom_of_not_mem fun hmem => (h _ hmem).1 (by decide)
  | quoted s => exact laidFrom_of_not_mem (Target.newline_not_mem_quote s)
  | append hs _ ih ih' =>
    rw [String.toList_append]
    exact happend hs (ih hk) (ih' hk)
  | round hs ih =>
    rw [String.append_assoc, String.toList_append, String.toList_append]
    exact laidFrom_open (o := '(') (by decide) rfl (happend hs (ih (by simpa using hk)) (laidFrom_singleton ')'))
  | square hs ih =>
    rw [String.append_assoc, String.toList_append, String.toList_append]
    exact laidFrom_open (o := '[') (by decide) rfl (happend hs (ih (by simpa using hk)) (laidFrom_singleton ']'))
  | brace hs ih =>
    rw [String.append_assoc, String.toList_append, String.toList_append]
    exact laidFrom_open (o := '\x7b') (by decide) rfl (happend hs (ih (by simpa using hk)) (laidFrom_singleton '\x7d'))
  | @hanging k _ s hs ih =>
    have hcount : ('\x7b' :: opened).count '\x7b' = k + 1 := by simpa using hk
    have hline : LineBegins ('\x7b' :: opened) (List.replicate (2 * k) ' ' ++ ['\x7d']) :=
      ⟨k, '\x7d', [], rfl, by decide, by decide, by simpa using hk⟩
    rw [String.append_assoc, String.append_assoc, String.toList_append, String.toList_append, String.toList_append]
    exact laidFrom_open (by decide) rfl (happend hs (ih hcount) (laidFrom_newline (laidFrom_singleton '\x7d') hline))
  | @line k _ s hb _ ih =>
    obtain ⟨c, hc, hne⟩ := hb
    simp only [List.mem_cons, List.not_mem_nil, or_false, not_or] at hne
    obtain ⟨hspace, hbreak, hclose⟩ := hne
    have hline : LineBegins opened (List.replicate (2 * k) ' ' ++ s.toList) :=
      ⟨k, c, s.toList.tail, by rw [List.cons_head?_tail hc], hspace, hbreak, by simp [hk, hclose]⟩
    rw [String.toList_append]
    exact laidFrom_newline (ih hk) hline

end Layout

end Brackets
end QuasiScript
