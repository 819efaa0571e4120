import QuasiScript.Proofs.Composition
import QuasiScript.Proofs.Progress

/-!
# Reading by descent

A text can also be read from above: a node asks for the tokens it needs and calls for the nodes inside it, and each of
the functions below may call every other. They have no result where they would call each other for ever. A reader with
a stack does the same work without calls. `Serves` says that a call ends, and that what it gives is what the stack
becomes; it is proved of all functions together, along what is left of the text (`serves`), for every call behind a
token finds less of it. So reading by descent ends for every text with what `Reading.ofText` gives (`units_eq`).
-/
namespace QuasiScript

abbrev Descent.Result := Except ReadError Node × Feed

namespace Feed

mutual

def node (d : Dialect) (l : Lexed) (f : Feed) : Option Descent.Result :=
  match l.error with
  | some e => some (.error e, f)
  | none =>
    match l.token.kind with
    | .openBracket => f |>.elements d l.token []
    | .closeBracket => some (.error (.single l.token.pos (.strayClose l.token.lexeme)), f)
    | .string => some (.ok (.leaf (.string l.token.lexeme) l.token), f)
    | .comment => (f.next d).2 |>.node d (f.next d).1
    | .punctuation => f |>.sugar d l.token
    | .atom | .endOfStream => some (.ok (.leaf (d.atomValue l.token.lexeme) l.token), f)
partial_fixpoint

def elements (d : Dialect) (opening : Token) (es : List Node) (f : Feed) : Option Descent.Result :=
  let (l, f) := f.next d
  match l.error with
  | some e => some (.error (.because opening.pos (.unclosed opening.lexeme) e), f)
  | none =>
    if l.token.kind = .comment then f |>.elements d opening es
    else if l.token.kind = .closeBracket then
      if l.token.lexeme = d.matching opening.lexeme then
        some (.ok (.list (Reader.closedElements d opening es) opening), f)
      else
        some (.error (.because opening.pos (.closedByOther opening.lexeme)
          (.single l.token.pos (.mismatch l.token.lexeme opening.lexeme))), f)
    else do
      match ← f |>.node d l with
      | (.error e, f) => some (.error e, f)
      | (.ok n, f) => f |>.elements d opening (n :: es)
partial_fixpoint

def sugar (d : Dialect) (first : Token) (f : Feed) : Option Descent.Result :=
  let (l, f) := f.next d
  if l.error = none ∧ l.token.kind = .punctuation ∧ d.beginsSugar (first.lexeme ++ l.token.lexeme) = true then
    f |>.sugar d { first with lexeme := first.lexeme ++ l.token.lexeme }
  else
    match d.punctuationSugar.get? first.lexeme with
    | none => some (.error (.single first.pos (.unknownPunctuation first.lexeme)), f)
    | some symbol => do
      match ← f |>.node d l with
      | (.error e, f) => some (.error e, f)
      | (.ok n, f) => some (.ok (.list [.leaf (.symbol symbol) first, n] first), f)
partial_fixpoint

end

def units (d : Dialect) (ns : List Node) (f : Feed) : Option (Reading × Feed) :=
  if f.cursor.atEnd d then some (⟨ns.reverse, none⟩, f)
  else
    let (l, f) := f.next d
    if l.error = none ∧ l.token.kind = .comment then f |>.units d ns
    else do
      match ← f |>.node d l with
      | (.error e, f) => some (⟨ns.reverse, some e⟩, f)
      | (.ok n, f) => f |>.units d (n :: ns)
partial_fixpoint

end Feed

namespace Reader
variable {d : Dialect}

/-! ## The stack, token by token -/

def resume (d : Dialect) (r : Reader) (c : Cursor) : Reading := r.readAll d (c.scan d).ending (c.scan d).tokens

def given (d : Dialect) (r : Reader) (l : Lexed) (c : Cursor) : Reading :=
  match l.error with
  | some e => ⟨r.finished.reverse, some (r.interrupted d e)⟩
  | none =>
    match r.step d l.token with
    | .ok r' => r'.resume d c
    | .error e => ⟨r.finished.reverse, some e⟩

theorem given_of_error {r : Reader} {l : Lexed} {e : ReadError} (h : l.error = some e) (c : Cursor) :
    r.given d l c = ⟨r.finished.reverse, some (r.interrupted d e)⟩ := by
  rw [given, h]

theorem given_of_step {r r' : Reader} {l : Lexed} (h : l.error = none) (hs : r.step d l.token = .ok r') (c : Cursor) :
    r.given d l c = r'.resume d c := by
  rw [given, h]
  dsimp only
  rw [hs]

theorem given_of_step_error {r : Reader} {l : Lexed} {e : ReadError} (h : l.error = none)
    (hs : r.step d l.token = .error e) (c : Cursor) : r.given d l c = ⟨r.finished.reverse, some e⟩ := by
  rw [given, h]
  dsimp only
  rw [hs]

/-- **A reader takes the next token first**, unless the text is read to its end. -/
theorem resume_eq_given (hd : "" ∉ d.longPunctuation) {r : Reader} {c : Cursor}
    (h : c.atEnd d = false ∨ r.isIdle = false) : r.resume d c = r.given d (c.next d).1 (c.next d).2 := by
  unfold resume
  cases hend : c.atEnd d with
  | true =>
    have hidle : r.isIdle = false := h.resolve_left (by simp [hend])
    rw [Cursor.scan_of_atEnd hend, Cursor.next_of_blank ((Cursor.atEnd_iff c).1 hend)]
    simp only [readAll, finish, hidle, given, Bool.false_eq_true, if_false]
  | false =>
    have hv := Cursor.next_not_void hd hend
    rcases hn : c.next d with ⟨⟨t, e⟩, c'⟩
    cases e with
    | some e =>
      rw [Cursor.scan_of_error hend hn]
      rfl
    | none =>
      rw [hn] at hv
      rw [Cursor.scan_of_token hend hn hv]
      rfl

/-- A run of punctuation that a token does not prolong ends before the token. -/
theorem given_of_ended {finished : List Node} {stack : List Pending} {first : Token} {l : Lexed}
    (h : ¬ (l.error = none ∧ l.token.kind = .punctuation ∧ d.beginsSugar (first.lexeme ++ l.token.lexeme) = true))
    (c : Cursor) : (Reader.mk finished stack (some first)).given d l c =
      match d.punctuationSugar.get? first.lexeme with
      | none => ⟨finished.reverse, some (.single first.pos (.unknownPunctuation first.lexeme))⟩
      | some symbol => (Reader.mk finished (.sugar first symbol :: stack) none).given d l c := by
  cases hl : l.error with
  | some e =>
    rw [given_of_error hl]
    cases hg : d.punctuationSugar.get? first.lexeme with
    | none => simp only [interrupted, endRun, hg]
    | some symbol =>
      dsimp only
      rw [given_of_error hl]
      simp only [interrupted, endRun, hg]
  | none =>
    have hended : ¬ (l.token.kind = .punctuation ∧ d.beginsSugar (first.lexeme ++ l.token.lexeme) = true) :=
      fun hboth => h ⟨hl, hboth⟩
    have hstep := step_of_ended (r := ⟨finished, stack, some first⟩) rfl hended
    cases hg : d.punctuationSugar.get? first.lexeme with
    | none =>
      refine given_of_step_error hl ?_ c
      rw [hstep]
      simp only [endRun, hg]
      rfl
    | some symbol =>
      dsimp only
      rw [given, given, hl]
      dsimp only
      rw [hstep, step_of_idle rfl]
      simp only [endRun, hg]
      rfl

/-- How a reading goes on when a node has come to its place, or none could be read. -/
def settle (d : Dialect) (finished : List Node) (stack : List Pending) : Except ReadError Node → Cursor → Reading
  | .ok n, c => (place finished stack n).resume d c
  | .error e, _ => ⟨finished.reverse, some e⟩

end Reader

namespace Descent
open Reader (settle)

variable {d : Dialect}

/-! ## Calls and the stack -/

/-- **A call ends**, at some later token, and the reader that has a stack instead goes on with what the call gives. -/
def Serves (d : Dialect) (f : Feed) (finished : List Node) (stack : List Pending) (expected : Reading)
    (outcome : Option Result) : Prop :=
  ∃ result f', outcome = some (result, f') ∧ f.Leads d f' ∧ expected = settle d finished stack result f'.cursor

theorem Serves.of_leads {f g : Feed} {finished : List Node} {stack : List Pending} {expected : Reading}
    {outcome : Option Result} (hlead : f.Leads d g) (h : Serves d g finished stack expected outcome) :
    Serves d f finished stack expected outcome := by
  obtain ⟨result, f', hout, hg, hexpected⟩ := h
  exact ⟨result, f', hout, hlead.trans hg, hexpected⟩

theorem serves_here {f : Feed} {finished : List Node} {stack : List Pending} {expected : Reading}
    {result : Except ReadError Node} (h : expected = settle d finished stack result f.cursor) :
    Serves d f finished stack expected (some (result, f)) :=
  ⟨result, f, rfl, .refl, h⟩

/-- Tokens that a node is read from. In a bracket an error, a comment and a close bracket are for the bracket to see,
and on the top level comments are passed over. -/
def Begins (l : Lexed) : List Pending → Prop
  | [] => l.error = none → l.token.kind ≠ .comment
  | .bracket _ _ :: _ => l.error = none ∧ l.token.kind ≠ .comment ∧ l.token.kind ≠ .closeBracket
  | .sugar _ _ :: _ => True

def NodesServe (d : Dialect) (m : Nat) : Prop :=
  ∀ (l : Lexed) (f : Feed) (finished : List Node) (stack : List Pending), f.cursor.rest.length ≤ m → Begins l stack →
    Serves d f finished stack ((Reader.mk finished stack none).given d l f.cursor) (f.node d l)

def ElementsServe (d : Dialect) (m : Nat) : Prop :=
  ∀ (opening : Token) (es : List Node) (f : Feed) (finished : List Node) (stack : List Pending),
    f.cursor.rest.length ≤ m → Serves d f finished stack
      ((Reader.mk finished (.bracket opening es :: stack) none).resume d f.cursor) (f.elements d opening es)

def SugarServes (d : Dialect) (m : Nat) : Prop :=
  ∀ (first : Token) (f : Feed) (finished : List Node) (stack : List Pending), f.cursor.rest.length ≤ m →
    Serves d f finished stack ((Reader.mk finished stack (some first)).resume d f.cursor) (f.sugar d first)

theorem next_lt_of_error_eq_none (hd : "" ∉ d.longPunctuation) {f : Feed} (h : (f.next d).1.error = none) :
    (f.next d).2.cursor.rest.length < f.cursor.rest.length :=
  Cursor.next_shorter hd (Cursor.atEnd_of_error_eq_none h)

theorem node_serves_of_error {l : Lexed} {e : ReadError} (h : l.error = some e) (f : Feed) (finished : List Node)
    {stack : List Pending} (hb : Begins l stack) :
    Serves d f finished stack ((Reader.mk finished stack none).given d l f.cursor) (f.node d l) := by
  rw [Feed.node, h, Reader.given_of_error h]
  apply serves_here
  cases stack with
  | nil => rfl
  | cons p stack =>
    cases p with
    | sugar head symbol => rfl
    | bracket opening es => cases h.symm.trans hb.1

theorem elements_serve (hd : "" ∉ d.longPunctuation) {m : Nat} (hnodes : ∀ k < m, NodesServe d k)
    (helements : ∀ k < m, ElementsServe d k) : ElementsServe d m := by
  intro opening es f finished stack hm
  have hlt : (f.next d).1.error = none → (f.next d).2.cursor.rest.length < m :=
    fun h => (next_lt_of_error_eq_none hd h).trans_le hm
  rw [Feed.elements, Reader.resume_eq_given hd (.inr rfl)]
  apply Serves.of_leads (Feed.leads_next f)
  change Serves d (f.next d).2 finished stack
    ((Reader.mk finished (.bracket opening es :: stack) none).given d (f.next d).1 (f.next d).2.cursor) _
  generalize f.next d = p at hlt ⊢
  obtain ⟨l, g⟩ := p
  dsimp only at hlt ⊢
  cases hl : l.error with
  | some e => exact serves_here (Reader.given_of_error hl _)
  | none =>
    dsimp only
    by_cases hc : l.token.kind = .comment
    · have hstep : (Reader.mk finished (.bracket opening es :: stack) none).step d l.token =
          .ok ⟨finished, .bracket opening es :: stack, none⟩ := by
        simp only [Reader.step_of_idle, Reader.accept, hc]
      rw [if_pos hc, Reader.given_of_step hl hstep]
      exact helements _ (hlt hl) opening es g finished stack (le_refl _)
    · by_cases hk : l.token.kind = .closeBracket
      · rw [if_neg hc, if_pos hk]
        by_cases hmatch : l.token.lexeme = d.matching opening.lexeme
        · rw [if_pos hmatch]
          exact serves_here (Reader.given_of_step hl (Reader.step_close hk hmatch) _)
        · rw [if_neg hmatch]
          refine serves_here (Reader.given_of_step_error hl ?_ _)
          simp only [Reader.step_of_idle, Reader.accept, hk, Reader.close, if_neg hmatch]
      · rw [if_neg hc, if_neg hk]
        -- the element is read into the bracket, and the bracket goes on behind it
        obtain ⟨result, g', hnode, hlead, hgiven⟩ :=
          hnodes _ (hlt hl) l g finished (.bracket opening es :: stack) (le_refl _) ⟨hl, hc, hk⟩
        rw [hnode, hgiven]
        cases result with
        | error e => exact ⟨.error e, g', rfl, hlead, rfl⟩
        | ok n =>
          apply Serves.of_leads hlead
          exact helements _ (hlead.rest_le.trans_lt (hlt hl)) opening (n :: es) g' finished stack (le_refl _)

theorem sugar_serves (hd : "" ∉ d.longPunctuation) {m : Nat} (hnodes : ∀ k < m, NodesServe d k)
    (hsugar : ∀ k < m, SugarServes d k) : SugarServes d m := by
  intro first f finished stack hm
  have hlt : (f.next d).1.error = none → (f.next d).2.cursor.rest.length < m :=
    fun h => (next_lt_of_error_eq_none hd h).trans_le hm
  rw [Feed.sugar, Reader.resume_eq_given hd (.inr (by simp [Reader.isIdle]))]
  apply Serves.of_leads (Feed.leads_next f)
  change Serves d (f.next d).2 finished stack
    ((Reader.mk finished stack (some first)).given d (f.next d).1 (f.next d).2.cursor) _
  generalize f.next d = p at hlt ⊢
  obtain ⟨l, g⟩ := p
  dsimp only at hlt ⊢
  by_cases hlong : l.error = none ∧ l.token.kind = .punctuation ∧
      d.beginsSugar (first.lexeme ++ l.token.lexeme) = true
  · rw [if_pos hlong, Reader.given_of_step hlong.1 (Reader.step_of_longer rfl hlong.2)]
    exact hsugar _ (hlt hlong.1) _ g finished stack (le_refl _)
  · rw [if_neg hlong, Reader.given_of_ended hlong]
    cases hg : d.punctuationSugar.get? first.lexeme with
    | none => exact serves_here rfl
    | some symbol =>
      have hserves : Serves d g finished (.sugar first symbol :: stack)
          ((Reader.mk finished (.sugar first symbol :: stack) none).given d l g.cursor) (g.node d l) := by
        cases hl : l.error with
        | some e => exact node_serves_of_error hl g finished trivial
        | none => exact hnodes _ (hlt hl) l g finished _ (le_refl _) trivial
      obtain ⟨result, g', hnode, hlead, hgiven⟩ := hserves
      dsimp only
      rw [hnode, hgiven]
      cases result with
      | error e => exact ⟨.error e, g', rfl, hlead, rfl⟩
      | ok n => exact ⟨.ok (.list [.leaf (.symbol symbol) first, n] first), g', rfl, hlead, rfl⟩

theorem nodes_serve (hd : "" ∉ d.longPunctuation) {m : Nat} (hnodes : ∀ k < m, NodesServe d k)
    (helements : ElementsServe d m) (hsugar : SugarServes d m) : NodesServe d m := by
  intro l f finished stack hm hb
  cases hl : l.error with
  | some e => exact node_serves_of_error hl f finished hb
  | none =>
    -- what the reader with a stack does with the token, by kinds
    have hstep := Reader.step_of_idle (d := d) (r := ⟨finished, stack, none⟩) rfl l.token
    unfold Reader.accept at hstep
    rw [Feed.node, hl]
    cases hk : l.token.kind with
    | openBracket =>
      rw [Reader.given_of_step hl (Reader.step_open rfl hk)]
      exact helements l.token [] f finished stack hm
    | closeBracket =>
      simp only [hk] at hstep
      refine serves_here (Reader.given_of_step_error hl (hstep.trans ?_) _)
      cases stack with
      | nil => rfl
      | cons p stack =>
        cases p with
        | sugar head symbol => rfl
        | bracket opening es => exact absurd hk hb.2.2
    | punctuation =>
      simp only [hk] at hstep
      rw [Reader.given_of_step hl hstep]
      exact hsugar l.token f finished stack hm
    | string | atom | endOfStream =>
      simp only [hk] at hstep
      exact serves_here (Reader.given_of_step hl hstep _)
    | comment =>
      simp only [hk] at hstep
      rw [Reader.given_of_step hl hstep]
      -- only punctuation calls for a node that may begin behind a comment
      cases stack with
      | nil => exact absurd hk (hb hl)
      | cons p stack =>
        cases p with
        | bracket opening es => exact absurd hk hb.2.1
        | sugar head symbol =>
          rw [Reader.resume_eq_given hd (.inr rfl)]
          apply Serves.of_leads (Feed.leads_next f)
          cases hnext : (f.next d).1.error with
          | some e => exact node_serves_of_error hnext _ finished trivial
          | none =>
            have hlt := (next_lt_of_error_eq_none hd hnext).trans_le hm
            exact hnodes _ hlt _ (f.next d).2 finished _ (le_refl _) trivial

/-- **All calls end as they should**, however much of the text is left. -/
theorem serves (hd : "" ∉ d.longPunctuation) (m : Nat) : NodesServe d m ∧ ElementsServe d m ∧ SugarServes d m := by
  induction m using Nat.strongRecOn with
  | ind m ih =>
    have helements := elements_serve hd (fun k hk => (ih k hk).1) (fun k hk => (ih k hk).2.1)
    have hsugar := sugar_serves hd (fun k hk => (ih k hk).1) (fun k hk => (ih k hk).2.2)
    exact ⟨nodes_serve hd (fun k hk => (ih k hk).1) helements hsugar, helements, hsugar⟩

/-- **Reading by descent ends**, with what the reader with a stack gives. -/
theorem units_eq (hd : "" ∉ d.longPunctuation) (ns : List Node) (f : Feed) :
    ∃ f', f.units d ns = some ((Reader.mk ns [] none).resume d f.cursor, f') ∧ f.Leads d f' := by
  induction hm : f.cursor.rest.length using Nat.strongRecOn generalizing ns f with
  | ind m ih =>
    cases hend : f.cursor.atEnd d with
    | true =>
      refine ⟨f, ?_, .refl⟩
      rw [Feed.units, if_pos hend, Reader.resume, Cursor.scan_of_atEnd hend]
      rfl
    | false =>
      have hlt : (f.next d).2.cursor.rest.length < m := hm ▸ Cursor.next_shorter hd hend
      have hstart : f.Leads d (f.next d).2 := Feed.leads_next f
      rw [Feed.units, if_neg (by simp [hend]), Reader.resume_eq_given hd (.inl hend)]
      change ∃ f', _ = some ((Reader.mk ns [] none).given d (f.next d).1 (f.next d).2.cursor, f') ∧ _
      generalize f.next d = p at hlt hstart ⊢
      obtain ⟨l, g⟩ := p
      dsimp only at hlt hstart ⊢
      by_cases hc : l.error = none ∧ l.token.kind = .comment
      · have hstep : (Reader.mk ns [] none).step d l.token = .ok ⟨ns, [], none⟩ := by
          simp only [Reader.step_of_idle, Reader.accept, hc.2]
        rw [if_pos hc, Reader.given_of_step hc.1 hstep]
        obtain ⟨f', hunits, hlead⟩ := ih _ hlt ns g rfl
        exact ⟨f', hunits, hstart.trans hlead⟩
      · obtain ⟨result, g', hnode, hlead, hgiven⟩ :=
          (serves hd _).1 l g ns [] (le_refl _) fun hl hk => hc ⟨hl, hk⟩
        rw [if_neg hc, hnode, hgiven]
        cases result with
        | error e => exact ⟨g', rfl, hstart.trans hlead⟩
        | ok n =>
          obtain ⟨f', hunits, hmore⟩ := ih _ (hlead.rest_le.trans_lt hlt) (n :: ns) g' rfl
          exact ⟨f', hunits, hstart.trans (hlead.trans hmore)⟩

/-- **Every call for a token makes progress, and every loop over tokens ends.** In all states that calls lead to,
errors or not: only whitespace remains exactly if the next call says that the text ends; a call that does not takes at
least one character past the whitespace; and one that does is followed by the same. So the loop that collects tokens
ends, with at most as many tokens as there are characters, and so does reading by descent, with the reading of the
text; of the characters it has passed there is at least one for each token it has asked for, the end of the text aside.
-/
theorem calls_progress_and_loops_end (hd : "" ∉ d.longPunctuation) (text : List Char) :
    (∀ n, let c := (Cursor.start text).skipTokens d n
      (c.atEnd d = true ↔ (c.next d).1.token.kind = .endOfStream) ∧
      ((c.next d).1.token.kind ≠ .endOfStream → ∃ ch raw, d.isWhitespace ch = false ∧
        (c.skipWhitespace d).rest = ch :: raw ++ (c.next d).2.rest) ∧
      ((c.next d).1.token.kind = .endOfStream →
        ∀ k, (((c.next d).2.skipTokens d k).next d).1 = (c.next d).1)) ∧
    (Cursor.tokenize d (.start text) = some (Scan.ofText d text).lexed ∧
      (Scan.ofText d text).lexed.length ≤ text.length) ∧
    ∃ f, (Feed.start text).units d [] = some (Reading.ofText d text, f) ∧
      f.tokensTaken + f.cursor.rest.length ≤ text.length := by
  refine ⟨fun n => ⟨Cursor.atEnd_iff_next _, fun h => ?_, fun h k => ?_⟩, Cursor.tokenize_eq hd (.start text), ?_⟩
  · exact Cursor.next_takes hd ((Cursor.atEnd_eq_false_iff_next _).2 h)
  · exact Cursor.next_again ((Cursor.atEnd_iff_next _).2 h) k
  · obtain ⟨f, hunits, hlead⟩ := units_eq hd [] (.start text)
    have hspent := hlead.spends hd
    refine ⟨f, hunits, hspent.trans ?_⟩
    change 0 + text.length ≤ text.length
    omega

/-- The close bracket also begins comments, and nothing can be closed. -/
theorem calls_progress_and_loops_end_overlapping :
    let d : Dialect := { Dialect.standard with commentStart := ')' }
    "" ∉ d.longPunctuation ∧ ∃ f, (Feed.start "a '(b) c".toList).units d [] =
      some (⟨[.leaf (.symbol "a") ⟨.atom, "a", ⟨1, 1⟩⟩],
        some (.because ⟨1, 4⟩ (.unclosed "(") (.single ⟨1, 9⟩ .endOfStream))⟩, f) ∧
      f.tokensTaken + f.cursor.rest.length ≤ 8 := by
  intro d
  have hd : "" ∉ d.longPunctuation := by decide
  have hread : Reading.ofText { Dialect.standard with commentStart := ')' } "a '(b) c".toList =
      ⟨[.leaf (.symbol "a") ⟨.atom, "a", ⟨1, 1⟩⟩],
        some (.because ⟨1, 4⟩ (.unclosed "(") (.single ⟨1, 9⟩ .endOfStream))⟩ := by cbv
  obtain ⟨f, hunits, hspent⟩ := (calls_progress_and_loops_end hd "a '(b) c".toList).2.2
  rw [hread] at hunits
  exact ⟨hd, f, hunits, hspent⟩

end Descent
end QuasiScript
