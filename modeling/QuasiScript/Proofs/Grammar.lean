import QuasiScript.Proofs.RoundTrip

/-!
# The grammar of the reader

The tokens of a text without its comments are the leaves of a derivation: an expression is an atom, a string, a bracket
with expressions up to its partner, or punctuation that abbreviates something before an expression (`Derives`). What the
reader holds between two tokens is a derivation of what it has taken so far (`Represents`), so what it accepts is
derivable; and a derivation leads the reader through its tokens to its tree (`Derives.advance`), so what is derivable is
accepted and has one tree only. The tree written back as tokens is the text again (`Derives.written_append`).
-/
namespace QuasiScript
open Dialect (standard)

namespace Token

abbrev Word : Type := Kind × String

def word (t : Token) : Word := (t.kind, t.lexeme)

/-- The tokens without the comments. -/
def words (ts : List Token) : List Token := ts.filter fun t => t.kind != .comment

def joined (ts : List Token) : String := String.join (ts.map lexeme)

def fused (p : Token) (ps : List Token) : Token := { p with lexeme := joined (p :: ps) }

/-- Where a token of one sort comes next after one of another, comments apart, it comes directly after it. -/
def Adjacent (P Q : Token → Prop) (ts : List Token) : Prop :=
  ∀ p cs q, p :: (cs ++ [q]) <:+: ts → P p → (∀ c ∈ cs, c.kind = .comment) → Q q → cs = []

def Unsplit (ts : List Token) : Prop :=
  Adjacent (fun p => p.word = (.punctuation, ",")) (fun q => q.word = (.punctuation, "@")) ts

def Uninterrupted (ts : List Token) : Prop :=
  ∀ p cs q, p :: (cs ++ [q]) <:+: ts → p.kind = .punctuation → (∀ c ∈ cs, c.kind = .comment) → q.kind = .punctuation →
    cs = []

end Token

namespace Reading
open Token (word words joined fused Adjacent Unsplit Uninterrupted Word)

/-! ## Derivations and trees -/

/-- **The grammar of expressions**, each derivation with its tree. -/
inductive Derives (d : Dialect) : List Token → Node → Prop where
  | atom {t : Token} : t.kind = .atom → Derives d [t] (.leaf (d.atomValue t.lexeme) t)
  | string {t : Token} : t.kind = .string → Derives d [t] (.leaf (.string t.lexeme) t)
  | list {o c : Token} (items : List (List Token × Node)) : o.kind = .openBracket → c.kind = .closeBracket →
      c.lexeme = d.matching o.lexeme → d.bracketSugar.get? o.lexeme = none → (∀ i ∈ items, Derives d i.1 i.2) →
      Derives d (o :: (items.flatMap Prod.fst ++ [c])) (.list (items.map Prod.snd) o)
  | sugaredList {o c : Token} {symbol : String} (items : List (List Token × Node)) : o.kind = .openBracket →
      c.kind = .closeBracket → c.lexeme = d.matching o.lexeme → d.bracketSugar.get? o.lexeme = some symbol →
      (∀ i ∈ items, Derives d i.1 i.2) →
      Derives d (o :: (items.flatMap Prod.fst ++ [c])) (.list (.leaf (.symbol symbol) o :: items.map Prod.snd) o)
  | sugared {p : Token} {ps ts : List Token} {symbol : String} {n : Node} : (∀ t ∈ p :: ps, t.kind = .punctuation) →
      d.punctuationSugar.get? (joined (p :: ps)) = some symbol → Derives d ts n →
      Derives d (p :: (ps ++ ts)) (.list [.leaf (.symbol symbol) (fused p ps), n] (fused p ps))

def Units (d : Dialect) (ts : List Token) (ns : List Node) : Prop :=
  ∃ items : List (List Token × Node), (∀ i ∈ items, Derives d i.1 i.2) ∧ ts = items.flatMap Prod.fst ∧
    ns = items.map Prod.snd

section Units
variable {d : Dialect} {ts us : List Token} {ns : List Node} {n : Node}

theorem units_nil : Units d [] [] := ⟨[], by simp, rfl, rfl⟩

theorem Units.snoc (h : Units d ts ns) (hn : Derives d us n) : Units d (ts ++ us) (ns ++ [n]) := by
  obtain ⟨items, hitems, rfl, rfl⟩ := h
  refine ⟨items ++ [(us, n)], ?_, by simp, by simp⟩
  intro i hi
  rcases List.mem_append.1 hi with hi | hi
  · exact hitems i hi
  · rw [List.mem_singleton.1 hi]
    exact hn

end Units

/-! ## What the reader holds is derived -/

section Sound
variable {d : Dialect}

/-- The tokens that opened what is open: brackets with expressions behind them, and abbreviations. -/
inductive Opened (d : Dialect) : List Pending → List Token → Prop where
  | nil : Opened d [] []
  | bracket {stack : List Pending} {ts us : List Token} {o : Token} {es : List Node} : Opened d stack ts →
      o.kind = .openBracket → Units d us es.reverse → Opened d (.bracket o es :: stack) (ts ++ o :: us)
  | sugar {stack : List Pending} {ts ps : List Token} {p : Token} {symbol : String} : Opened d stack ts →
      (∀ t ∈ p :: ps, t.kind = .punctuation) → d.punctuationSugar.get? (joined (p :: ps)) = some symbol →
      Opened d (.sugar (fused p ps) symbol :: stack) (ts ++ p :: ps)

def Gathered (run : Option Token) (ts : List Token) : Prop :=
  match run with
  | none => ts = []
  | some first => ∃ p ps, ts = p :: ps ∧ (∀ t ∈ ts, t.kind = .punctuation) ∧ first = fused p ps

/-- The reader holds what is derived from the tokens. -/
def Represents (d : Dialect) (r : Reader) (ts : List Token) : Prop :=
  ∃ us vs ws, ts = us ++ vs ++ ws ∧ Units d us r.finished.reverse ∧ Opened d r.stack vs ∧ Gathered r.run ws

theorem represents_start : Represents d Reader.start [] := ⟨[], [], [], rfl, units_nil, .nil, rfl⟩

theorem place_represents {finished : List Node} {us : List Token} (hf : Units d us finished.reverse)
    {stack : List Pending} {vs : List Token} (hstack : Opened d stack vs) : ∀ {ts : List Token} {n : Node},
      Derives d ts n → Represents d (Reader.place finished stack n) (us ++ vs ++ ts) := by
  -- punctuation before the node makes a larger node of it, which then goes further out
  induction hstack with
  | nil =>
    intro ts n hn
    refine ⟨us ++ ts, [], [], by simp, ?_, .nil, rfl⟩
    rw [Reader.place, List.reverse_cons]
    exact hf.snoc hn
  | @bracket stack ws inside o es hstack ho hes _ =>
    intro ts n hn
    refine ⟨us, ws ++ o :: (inside ++ ts), [], by simp, hf, .bracket hstack ho ?_, rfl⟩
    rw [List.reverse_cons]
    exact hes.snoc hn
  | @sugar stack ws ps p symbol _ hp hkey ih =>
    intro ts n hn
    have hplaced := ih (.sugared hp hkey hn)
    rw [Reader.place]
    simpa using hplaced

/-- Without a run of punctuation all tokens are in finished nodes or behind something open. -/
theorem Represents.of_idle {r : Reader} {ts : List Token} (h : Represents d r ts) (hrun : r.run = none) :
    ∃ us vs, ts = us ++ vs ∧ Units d us r.finished.reverse ∧ Opened d r.stack vs := by
  obtain ⟨us, vs, ws, rfl, hf, hstack, hws⟩ := h
  rw [hrun] at hws
  obtain rfl : ws = [] := hws
  exact ⟨us, vs, by simp, hf, hstack⟩

theorem endRun_run {r r' : Reader} (h : r.endRun d = .ok r') : r'.run = none := by
  unfold Reader.endRun at h
  split at h
  · rename_i hr
    cases h
    exact hr
  · split at h
    · cases h
      rfl
    · cases h

theorem endRun_represents {r r' : Reader} {ts : List Token} (h : Represents d r ts) (he : r.endRun d = .ok r') :
    Represents d r' ts := by
  obtain ⟨us, vs, ws, rfl, hf, hstack, hrun⟩ := h
  unfold Reader.endRun at he
  split at he
  · cases he
    exact ⟨us, vs, ws, rfl, hf, hstack, hrun⟩
  · rename_i first hr
    rw [hr] at hrun
    obtain ⟨p, ps, rfl, hp, rfl⟩ := hrun
    split at he
    · rename_i symbol hkey
      cases he
      exact ⟨us, vs ++ p :: ps, [], by simp, hf, .sugar hstack hp hkey, rfl⟩
    · cases he

theorem close_represents {r r' : Reader} {ts : List Token} {t : Token} (h : Represents d r ts) (hrun : r.run = none)
    (ht : t.kind = .closeBracket) (he : r.close d t = .ok r') : Represents d r' (ts ++ [t]) := by
  obtain ⟨us, vs, rfl, hf, hstack⟩ := h.of_idle hrun
  unfold Reader.close at he
  split at he
  · rename_i o es stack hr
    rw [hr] at hstack
    split at he
    · rename_i hm
      cases he
      cases hstack with
      | bracket hstack ho hes =>
        obtain ⟨items, hitems, rfl, hrev⟩ := hes
        have hlist : Derives d (o :: (items.flatMap Prod.fst ++ [t])) (.list (Reader.closedElements d o es) o) := by
          unfold Reader.closedElements
          rw [hrev]
          cases hb : d.bracketSugar.get? o.lexeme with
          | none => exact .list items ho ht hm hb hitems
          | some symbol => exact .sugaredList items ho ht hm hb hitems
        have hplaced := place_represents hf hstack hlist
        simpa using hplaced
    · cases he
  · cases he

theorem accept_represents {r r' : Reader} {ts : List Token} {t : Token} (h : Represents d r ts) (hrun : r.run = none)
    (ht : t.kind ≠ .endOfStream) (he : r.accept d t = .ok r') : Represents d r' (ts ++ words [t]) := by
  have hword : ∀ {k : Token.Kind}, t.kind = k → k ≠ .comment → words [t] = [t] := by
    intro k hk hne
    simp [words, hk, hne]
  obtain ⟨us, vs, hts, hf, hstack⟩ := h.of_idle hrun
  unfold Reader.accept at he
  cases hk : t.kind with
  | endOfStream => exact absurd hk ht
  | comment =>
    simp only [hk] at he
    cases he
    have : words [t] = [] := by simp [words, hk]
    rwa [this, List.append_nil]
  | closeBracket =>
    simp only [hk] at he
    rw [hword hk (by decide)]
    exact close_represents h hrun hk he
  | atom =>
    simp only [hk] at he
    cases he
    rw [hword hk (by decide)]
    rw [hts]
    exact place_represents hf hstack (.atom hk)
  | string =>
    simp only [hk] at he
    cases he
    rw [hword hk (by decide)]
    rw [hts]
    exact place_represents hf hstack (.string hk)
  | openBracket =>
    simp only [hk] at he
    cases he
    rw [hword hk (by decide)]
    refine ⟨us, vs ++ [t], [], by simp [hts], hf, ?_, ?_⟩
    · exact .bracket hstack hk units_nil
    · rw [hrun]
      rfl
  | punctuation =>
    simp only [hk] at he
    cases he
    rw [hword hk (by decide)]
    refine ⟨us, vs, [t], by simp [hts], hf, hstack, t, [], rfl, by simpa using hk, ?_⟩
    simp [fused, joined]

/-- **Every step keeps the derivation**: a comment adds nothing, any other token itself. -/
theorem step_represents {r r' : Reader} {ts : List Token} {t : Token} (h : Represents d r ts)
    (ht : t.kind ≠ .endOfStream) (he : r.step d t = .ok r') : Represents d r' (ts ++ words [t]) := by
  cases hrun : r.run with
  | none =>
    rw [Reader.step_of_idle hrun] at he
    exact accept_represents h hrun ht he
  | some first =>
    by_cases hl : t.kind = .punctuation ∧ d.beginsSugar (first.lexeme ++ t.lexeme) = true
    · rw [Reader.step_of_longer hrun hl] at he
      cases he
      obtain ⟨us, vs, ws, rfl, hf, hstack, hws⟩ := h
      rw [hrun] at hws
      obtain ⟨p, ps, rfl, hp, rfl⟩ := hws
      have hword : words [t] = [t] := by simp [words, hl.1]
      rw [hword]
      refine ⟨us, vs, p :: (ps ++ [t]), by simp, hf, hstack, p, ps ++ [t], rfl, ?_, ?_⟩
      · intro u hu
        rw [← List.cons_append, List.mem_append] at hu
        rcases hu with hu | hu
        · exact hp u hu
        · rw [List.mem_singleton.1 hu]
          exact hl.1
      · simp [fused, joined, String.append_assoc]
    · rw [Reader.step_of_ended hrun hl] at he
      cases hend : r.endRun d with
      | error e =>
        rw [hend] at he
        cases he
      | ok r₁ =>
        rw [hend] at he
        exact accept_represents (endRun_represents h hend) (endRun_run hend) ht he

/-- **Along every reading** the reader holds what is derived from the tokens so far. -/
theorem advance_represents : ∀ {us ts : List Token} {r r' : Reader}, Represents d r ts →
    (∀ t ∈ us, t.kind ≠ .endOfStream) → r.advance d us = .ok r' → Represents d r' (ts ++ words us)
  | [], ts, r, r', h, _, he => by
    cases he
    simpa [words] using h
  | t :: us, ts, r, r', h, hus, he => by
    obtain ⟨ht, hus⟩ := List.forall_mem_cons.1 hus
    cases hs : r.step d t with
    | error e =>
      rw [Reader.advance, hs] at he
      cases he
    | ok r₁ =>
      rw [Reader.advance_cons hs] at he
      have hrest := advance_represents (step_represents h ht hs) hus he
      have hsplit : words [t] ++ words us = words (t :: us) := by
        rw [words, words, words, ← List.filter_append, List.singleton_append]
      rwa [List.append_assoc, hsplit] at hrest

theorem units_of_represents {finished : List Node} {ts : List Token} (h : Represents d ⟨finished, [], none⟩ ts) :
    Units d ts finished.reverse := by
  obtain ⟨us, vs, rfl, hf, hstack⟩ := h.of_idle rfl
  cases hstack
  simpa using hf

end Sound

/-! ## A derivation leads the reader to its tree -/

theorem mem_names_of_get? {t : Table String} {key symbol : String} (h : t.get? key = some symbol) : key ∈ t.names :=
  List.mem_map_of_mem (f := Prod.fst) (Dialect.mem_of_get? h)

theorem beginsSugar_of_append {d : Dialect} {run more : String} (h : d.beginsSugar (run ++ more) = true) :
    d.beginsSugar run = true := by
  unfold Dialect.beginsSugar at h ⊢
  rw [List.any_eq_true] at h ⊢
  obtain ⟨key, hkey, hp⟩ := h
  rw [String.toList_append, List.isPrefixOf_iff_prefix] at hp
  exact ⟨key, hkey, List.isPrefixOf_iff_prefix.2 ((List.prefix_append _ _).trans hp)⟩

theorem beginsSugar_of_get? {d : Dialect} {key symbol : String} (h : d.punctuationSugar.get? key = some symbol) :
    d.beginsSugar key = true := by
  unfold Dialect.beginsSugar
  rw [List.any_eq_true]
  exact ⟨key, mem_names_of_get? h, List.isPrefixOf_iff_prefix.2 List.prefix_rfl⟩

/-- Punctuation is gathered as long as it begins an abbreviation. -/
theorem advance_punctuation {d : Dialect} (finished : List Node) (stack : List Pending) :
    ∀ (ps : List Token) (first : Token), (∀ t ∈ ps, t.kind = .punctuation) →
      d.beginsSugar (first.lexeme ++ joined ps) = true →
      Reader.advance d ⟨finished, stack, some first⟩ ps =
        .ok ⟨finished, stack, some { first with lexeme := first.lexeme ++ joined ps }⟩
  | [], first, _, _ => by simp [Reader.advance, joined]
  | t :: ps, first, hps, hb => by
    obtain ⟨ht, hps⟩ := List.forall_mem_cons.1 hps
    have hjoin : first.lexeme ++ joined (t :: ps) = first.lexeme ++ t.lexeme ++ joined ps := by
      simp [joined, String.append_assoc]
    rw [hjoin] at hb ⊢
    rw [Reader.advance_cons (Reader.step_of_longer rfl ⟨ht, beginsSugar_of_append hb⟩)]
    exact advance_punctuation finished stack ps { first with lexeme := first.lexeme ++ t.lexeme } hps hb

/-- A token that cannot go on with a run of punctuation is taken as if the run had ended before. -/
theorem advance_of_ended {d : Dialect} (finished : List Node) (stack : List Pending) (first : Token) {t : Token}
    {symbol : String} (hkey : d.punctuationSugar.get? first.lexeme = some symbol)
    (hl : ¬ (t.kind = .punctuation ∧ d.beginsSugar (first.lexeme ++ t.lexeme) = true)) (ts : List Token) :
    Reader.advance d ⟨finished, stack, some first⟩ (t :: ts) =
      Reader.advance d ⟨finished, .sugar first symbol :: stack, none⟩ (t :: ts) := by
  have hstep : Reader.step d ⟨finished, stack, some first⟩ t =
      Reader.step d ⟨finished, .sugar first symbol :: stack, none⟩ t := by
    rw [Reader.step_of_ended rfl hl, Reader.step_of_idle rfl]
    simp only [Reader.endRun, hkey]
    rfl
  rw [Reader.advance, Reader.advance, hstep]

/-- What a derivation begins with: something, and if that is punctuation, the beginning of an abbreviation. -/
theorem Derives.head {d : Dialect} {ts : List Token} {n : Node} (h : Derives d ts n) :
    ∃ t rest, ts = t :: rest ∧ (t.kind = .punctuation → d.beginsSugar t.lexeme = true) := by
  have hnot : ∀ {t : Token} {k : Token.Kind}, t.kind = k → k ≠ .punctuation → t.kind = .punctuation →
      d.beginsSugar t.lexeme = true := by
    intro t k hk hne ht
    exact absurd (hk.symm.trans ht) hne
  cases h with
  | atom ht => exact ⟨_, _, rfl, hnot ht (by decide)⟩
  | string ht => exact ⟨_, _, rfl, hnot ht (by decide)⟩
  | list items ho => exact ⟨_, _, rfl, hnot ho (by decide)⟩
  | sugaredList items ho => exact ⟨_, _, rfl, hnot ho (by decide)⟩
  | @sugared p ps ts symbol n hp hkey hn =>
    refine ⟨p, _, rfl, fun _ => ?_⟩
    have hb := beginsSugar_of_get? hkey
    have hjoin : joined (p :: ps) = p.lexeme ++ joined ps := by simp [joined]
    rw [hjoin] at hb
    exact beginsSugar_of_append hb

/-- No abbreviation of the language goes on with the beginning of another one. -/
theorem beginsSugar_append_standard {key symbol more : String} (hkey : standard.punctuationSugar.get? key = some symbol)
    (hne : more ≠ "") (hmore : standard.beginsSugar more = true) : standard.beginsSugar (key ++ more) = false := by
  have hall : ∀ key ∈ standard.punctuationSugar.names, ∀ key' ∈ standard.punctuationSugar.names,
      ∀ cs ∈ key'.toList.inits, cs ≠ [] → standard.beginsSugar (key ++ String.ofList cs) = false := by decide
  unfold Dialect.beginsSugar at hmore
  rw [List.any_eq_true] at hmore
  obtain ⟨key', hkey', hp⟩ := hmore
  have hcs : more.toList ∈ key'.toList.inits := (List.mem_inits _ _).2 (List.isPrefixOf_iff_prefix.1 hp)
  have := hall key (mem_names_of_get? hkey) key' hkey' more.toList hcs fun h => hne (String.toList_eq_nil_iff.1 h)
  rwa [String.ofList_toList] at this

/-- What holds of all tokens of a bracket holds of the tokens of each expression in it. -/
theorem forall_mem_item {P : Token → Prop} {o c : Token} {items : List (List Token × Node)}
    (h : ∀ t ∈ o :: (items.flatMap Prod.fst ++ [c]), P t) : ∀ i ∈ items, ∀ t ∈ i.1, P t := by
  intro i hi t ht
  refine h t ?_
  rw [List.mem_cons, List.mem_append, List.mem_flatMap]
  exact .inr (.inl ⟨i, hi, ht⟩)

theorem advance_items {items : List (List Token × Node)}
    (h : ∀ i ∈ items, ∀ r : Reader, r.run = none →
      r.advance standard i.1 = .ok (Reader.place r.finished r.stack i.2)) :
    ∀ r : Reader, r.run = none →
      r.advance standard (items.flatMap Prod.fst) = .ok (r.placeAll (items.map Prod.snd)) := by
  induction items with
  | nil => exact fun r _ => rfl
  | cons i items ih =>
    obtain ⟨hi, hitems⟩ := List.forall_mem_cons.1 h
    intro r hr
    rw [List.flatMap_cons, Reader.advance_append, hi r hr]
    exact ih hitems _ (Reader.place_run r.finished r.stack i.2)

/-- A bracket around derived expressions is read as the list of their trees. -/
theorem advance_bracket {o c : Token} {items : List (List Token × Node)} (ho : o.kind = .openBracket)
    (hc : c.kind = .closeBracket) (hm : c.lexeme = standard.matching o.lexeme)
    (h : ∀ i ∈ items, ∀ r : Reader, r.run = none →
      r.advance standard i.1 = .ok (Reader.place r.finished r.stack i.2)) {r : Reader} (hr : r.run = none) :
    r.advance standard (o :: (items.flatMap Prod.fst ++ [c])) =
      .ok (Reader.place r.finished r.stack
        (.list (Reader.closedElements standard o (items.map Prod.snd).reverse) o)) := by
  rw [Reader.advance_cons (Reader.step_open hr ho), Reader.advance_append, advance_items h _ rfl,
    Reader.placeAll_bracket, List.append_nil]
  exact Reader.advance_cons (Reader.step_close hc hm) []

/-- **A derivation leads the reader through its tokens to its tree.** -/
theorem Derives.advance {ts : List Token} {n : Node} (h : Derives standard ts n) (hreg : ∀ t ∈ ts, t.Regular standard) :
    ∀ r : Reader, r.run = none → r.advance standard ts = .ok (Reader.place r.finished r.stack n) := by
  induction h with
  | atom ht =>
    intro r hr
    simp only [Reader.advance, Reader.step_of_idle hr, Reader.accept, ht]
  | string ht =>
    intro r hr
    simp only [Reader.advance, Reader.step_of_idle hr, Reader.accept, ht]
  | list items ho hc hm hb _ ih =>
    intro r hr
    have hitems := fun i hi => ih i hi (forall_mem_item hreg i hi)
    rw [advance_bracket ho hc hm hitems hr]
    simp only [Reader.closedElements, hb, List.reverse_reverse]
  | sugaredList items ho hc hm hb _ ih =>
    intro r hr
    have hitems := fun i hi => ih i hi (forall_mem_item hreg i hi)
    rw [advance_bracket ho hc hm hitems hr]
    simp only [Reader.closedElements, hb, List.reverse_reverse]
  | @sugared p ps ts symbol n hp hkey hn ih =>
    intro r hr
    obtain ⟨t, rest, rfl, hhead⟩ := hn.head
    -- the run is gathered, the operand's first token ends it, and the operand finds it on the stack
    have hfirst : r.step standard p = .ok ⟨r.finished, r.stack, some p⟩ := by
      simp only [Reader.step_of_idle hr, Reader.accept, hp p (by simp)]
    have hgather := advance_punctuation r.finished r.stack ps p (fun t ht => hp t (by simp [ht])) (by
      have := beginsSugar_of_get? hkey
      simpa [joined] using this)
    have hend : ¬ (t.kind = .punctuation ∧ standard.beginsSugar ((fused p ps).lexeme ++ t.lexeme) = true) := by
      rintro ⟨ht, hb⟩
      have hne : t.lexeme ≠ "" := by
        have := hreg t (by simp)
        simpa [Token.Regular, ht] using this
      rw [show (fused p ps).lexeme = joined (p :: ps) from rfl, beginsSugar_append_standard hkey hne (hhead ht)] at hb
      cases hb
    have hlex : p.lexeme ++ joined ps = joined (p :: ps) := by simp [joined]
    rw [Reader.advance_cons hfirst, Reader.advance_append, hgather, hlex]
    refine (advance_of_ended r.finished r.stack (fused p ps) hkey hend rest).trans ?_
    rw [ih (fun u hu => hreg u (by simp [hu])) _ rfl]
    rfl

/-! ## Comments -/

/-- It is enough to look behind each token, up to the first one that is no comment. -/
theorem adjacent_cons_iff {P Q : Token → Prop} (hQ : ∀ q, Q q → q.kind ≠ .comment) {t : Token} {ts : List Token} :
    Adjacent P Q (t :: ts) ↔ (P t → ∀ q ∈ (words ts).head?, Q q → ts.head? = some q) ∧ Adjacent P Q ts := by
  constructor
  · intro h
    refine ⟨fun ht q hq hqp => ?_, fun p cs q hpart => h p cs q (hpart.trans (List.suffix_cons t ts).isInfix)⟩
    obtain ⟨rest, hw⟩ := List.head?_eq_some_iff.1 hq
    obtain ⟨cs, ts', rfl, hcs, -, -⟩ := List.filter_eq_cons_iff.1 hw
    have hpart : t :: (cs ++ [q]) <:+: t :: (cs ++ q :: ts') :=
      (show t :: (cs ++ [q]) <+: t :: (cs ++ q :: ts') from ⟨ts', by simp⟩).isInfix
    rw [h t cs q hpart ht (fun c hc => by simpa using hcs c hc) hqp]
    rfl
  · rintro ⟨hhead, hrest⟩ p cs q hpart hp hcs hq
    rcases List.infix_cons_iff.1 hpart with ⟨ts', hts⟩ | hpart
    · obtain ⟨rfl, rfl⟩ := List.cons.inj hts
      cases cs with
      | nil => rfl
      | cons c cs =>
        have hw : (words (c :: cs ++ [q] ++ ts')).head? = some q := by
          have hnil : words (c :: cs) = [] := by simpa [words] using hcs
          simp only [words, List.filter_append] at hnil ⊢
          simp [hnil, hQ q hq]
        have := hhead hp q hw hq
        obtain rfl : c = q := by simpa using this
        exact absurd (hcs c (by simp)) (hQ c hq)
    · exact hrest p cs q hpart hp hcs hq

theorem punctuation_ne_comment : ∀ q : Token, q.kind = .punctuation → q.kind ≠ .comment := by
  intro q hq
  rw [hq]
  decide

theorem word_ne_comment {lexeme : String} : ∀ q : Token, q.word = (.punctuation, lexeme) → q.kind ≠ .comment :=
  fun q hq => punctuation_ne_comment q (congrArg Prod.fst hq)

def decidableAdjacent {P Q : Token → Prop} [DecidablePred P] [DecidablePred Q] (hQ : ∀ q, Q q → q.kind ≠ .comment) :
    ∀ ts : List Token, Decidable (Adjacent P Q ts)
  | [] => isTrue fun p cs q hpart => by simp at hpart
  | t :: ts =>
    have := decidableAdjacent (P := P) hQ ts
    decidable_of_iff _ (adjacent_cons_iff hQ).symm

instance decidableUninterrupted : DecidablePred Uninterrupted := decidableAdjacent punctuation_ne_comment

instance decidableUnsplit : DecidablePred Unsplit := decidableAdjacent word_ne_comment

theorem unsplit_of_uninterrupted {ts : List Token} (h : Uninterrupted ts) : Unsplit ts :=
  fun p cs q hpart hp hcs hq => h p cs q hpart (congrArg Prod.fst hp) hcs (congrArg Prod.fst hq)

/-- The only abbreviation of the language that is made of two is a comma and an at-sign. -/
theorem eq_splicing_of_beginsSugar {run more : String} (hrun : run ≠ "") (hmore : more ≠ "")
    (h : standard.beginsSugar (run ++ more) = true) : run = "," ∧ more = "@" := by
  have hkeys : ∀ key ∈ standard.punctuationSugar.names, key.toList.length ≤ 1 ∨ key.toList = [',', '@'] := by decide
  unfold Dialect.beginsSugar at h
  rw [List.any_eq_true] at h
  obtain ⟨key, hkey, hp⟩ := h
  rw [List.isPrefixOf_iff_prefix, String.toList_append] at hp
  obtain ⟨a, as, ha⟩ := List.exists_cons_of_ne_nil fun h => hrun (String.toList_eq_nil_iff.1 h)
  obtain ⟨b, bs, hb⟩ := List.exists_cons_of_ne_nil fun h => hmore (String.toList_eq_nil_iff.1 h)
  have hlen := hp.length_le
  rw [ha, hb, List.length_append, List.length_cons, List.length_cons] at hlen
  rcases hkeys key hkey with hshort | hsplice
  · omega
  · rw [hsplice, List.length_cons, List.length_cons, List.length_nil] at hlen
    obtain rfl : as = [] := List.length_eq_zero_iff.1 (by omega)
    obtain rfl : bs = [] := List.length_eq_zero_iff.1 (by omega)
    rw [hsplice, ha, hb] at hp
    obtain ⟨rfl, rfl⟩ : a = ',' ∧ b = '@' := by simpa using hp
    exact ⟨String.toList_inj.1 ha, String.toList_inj.1 hb⟩

theorem accept_run {d : Dialect} {r r' : Reader} {t : Token} (hrun : r.run = none) (h : r.accept d t = .ok r')
    (hp : t.kind ≠ .punctuation) : r'.run = none := by
  unfold Reader.accept at h
  cases hk : t.kind with
  | punctuation => exact absurd hk hp
  | comment | openBracket =>
    simp only [hk] at h
    cases h
    exact hrun
  | string | atom | endOfStream =>
    simp only [hk] at h
    cases h
    exact Reader.place_run _ _ _
  | closeBracket =>
    simp only [hk, Reader.close] at h
    split at h
    · split at h
      · cases h
        exact Reader.place_run _ _ _
      · cases h
    · cases h

theorem step_run {d : Dialect} {r r' : Reader} {t : Token} (h : r.step d t = .ok r') (hp : t.kind ≠ .punctuation) :
    r'.run = none := by
  cases hrun : r.run with
  | none =>
    rw [Reader.step_of_idle hrun] at h
    exact accept_run hrun h hp
  | some first =>
    rw [Reader.step_of_ended hrun fun hl => hp hl.1] at h
    cases hend : r.endRun d with
    | error e =>
      rw [hend] at h
      cases h
    | ok r₁ =>
      rw [hend] at h
      exact accept_run (endRun_run hend) h hp

/-- A run that is there behind a token begins with it, or goes on with it. -/
theorem step_run_cases {d : Dialect} {r r' : Reader} {t first : Token} (h : r.step d t = .ok r')
    (hfirst : r'.run = some first) : t.kind = .punctuation ∧ (first = t ∨ ∃ begun, r.run = some begun ∧
      d.beginsSugar (begun.lexeme ++ t.lexeme) = true ∧ first.lexeme = begun.lexeme ++ t.lexeme) := by
  have ht : t.kind = .punctuation := by
    by_contra hp
    rw [step_run h hp] at hfirst
    cases hfirst
  have hbegins : ∀ {r₁ : Reader}, r₁.accept d t = .ok r' → first = t := by
    intro r₁ h₁
    simp only [Reader.accept, ht] at h₁
    cases h₁
    exact (Option.some.inj hfirst).symm
  refine ⟨ht, ?_⟩
  cases hrun : r.run with
  | none =>
    rw [Reader.step_of_idle hrun] at h
    exact .inl (hbegins h)
  | some begun =>
    by_cases hl : t.kind = .punctuation ∧ d.beginsSugar (begun.lexeme ++ t.lexeme) = true
    · rw [Reader.step_of_longer hrun hl] at h
      cases h
      cases hfirst
      exact .inr ⟨begun, rfl, hl.2, rfl⟩
    · rw [Reader.step_of_ended hrun hl] at h
      cases hend : r.endRun d with
      | error e =>
        rw [hend] at h
        cases h
      | ok r₁ =>
        rw [hend] at h
        exact .inl (hbegins h)

/-- A comment behind a run of punctuation ends it; so does what comes after the comment, if it does not go on with it. -/
theorem advance_comment {finished : List Node} {stack : List Pending} {first t q : Token} {r : Reader} {ts : List Token}
    (ht : t.kind = .comment) (hq : ¬ (q.kind = .punctuation ∧ standard.beginsSugar (first.lexeme ++ q.lexeme) = true))
    (h : Reader.advance standard ⟨finished, stack, some first⟩ (q :: ts) = .ok r) :
    ∃ r' : Reader, r'.run = none ∧ Reader.step standard ⟨finished, stack, some first⟩ t = .ok r' ∧
      r'.advance standard (q :: ts) = .ok r := by
  cases hkey : standard.punctuationSugar.get? first.lexeme with
  | none =>
    rw [Reader.advance, Reader.step_of_ended rfl hq] at h
    simp only [Reader.endRun, hkey, Except.bind] at h
    cases h
  | some symbol =>
    refine ⟨⟨finished, .sugar first symbol :: stack, none⟩, rfl, ?_, ?_⟩
    · rw [Reader.step_of_ended rfl (by simp [ht])]
      simp only [Reader.endRun, hkey, Except.bind, Reader.accept, ht]
    · rw [← h]
      exact (advance_of_ended finished stack first hkey hq ts).symm

/-- What a reader has gathered before the tokens that follow: if that is a comma, no comments split it from what comes. -/
def Unites (r : Reader) (ts : List Token) : Prop :=
  ∀ first ∈ r.run, first.lexeme ≠ "" ∧
    (first.lexeme = "," → ∃ p : Token, p.word = (.punctuation, ",") ∧ Unsplit (p :: ts))

theorem unites_of_idle {r : Reader} {ts : List Token} (h : r.run = none) : Unites r ts := by
  intro first hfirst
  rw [h] at hfirst
  cases hfirst

theorem step_unites {r r' : Reader} {t : Token} {ts : List Token} (h : Unites r (t :: ts)) (hun : Unsplit (t :: ts))
    (ht : t.Regular standard) (hs : r.step standard t = .ok r') : Unites r' ts := by
  intro first hfirst
  obtain ⟨hk, hcases⟩ := step_run_cases hs hfirst
  have hne : t.lexeme ≠ "" := by simpa [Token.Regular, hk] using ht
  rcases hcases with rfl | ⟨begun, hrun, hb, hlex⟩
  · exact ⟨hne, fun hcomma => ⟨first, by rw [word, hk, hcomma], hun⟩⟩
  · obtain ⟨hbegun, hat⟩ := eq_splicing_of_beginsSugar (h begun hrun).1 hne hb
    rw [hbegun, hat] at hlex
    rw [hlex]
    exact ⟨by decide, fun hcomma => absurd hcomma (by decide)⟩

/-- **Comments may be left out**, if none splits a comma from an at-sign. -/
theorem advance_of_words : ∀ {ts : List Token} {r : Reader} {finished : List Node}, (∀ t ∈ ts, t.Regular standard) →
    Unsplit ts → Unites r ts → r.advance standard (words ts) = .ok ⟨finished, [], none⟩ →
    r.advance standard ts = .ok ⟨finished, [], none⟩
  | [], _, _, _, _, _, h => h
  | t :: ts, r, finished, hreg, hun, hrun, h => by
    obtain ⟨ht, hregs⟩ := List.forall_mem_cons.1 hreg
    have huns := ((adjacent_cons_iff word_ne_comment).1 hun).2
    by_cases hc : t.kind = .comment
    · have hwords : words (t :: ts) = words ts := by simp [words, hc]
      rw [hwords] at h
      rcases r with ⟨done, stack, run⟩
      cases run with
      | none =>
        have hstep : Reader.step standard ⟨done, stack, none⟩ t = .ok ⟨done, stack, none⟩ := by
          simp only [Reader.step, Reader.accept, hc]
        rw [Reader.advance_cons hstep]
        exact advance_of_words hregs huns (unites_of_idle rfl) h
      | some first =>
        cases hw : words ts with
        | nil =>
          rw [hw] at h
          cases h
        | cons q rest =>
          -- the run goes on behind the comments only if it is a comma and an at-sign comes
          have hq : ¬ (q.kind = .punctuation ∧ standard.beginsSugar (first.lexeme ++ q.lexeme) = true) := by
            rintro ⟨hq, hb⟩
            have hqreg := hregs q (List.mem_of_mem_filter (hw ▸ List.mem_cons_self))
            obtain ⟨hne, hsplit⟩ := hrun first rfl
            obtain ⟨hcomma, hat⟩ := eq_splicing_of_beginsSugar hne (by simpa [Token.Regular, hq] using hqreg) hb
            obtain ⟨p, hp, hup⟩ := hsplit hcomma
            have hnext := ((adjacent_cons_iff word_ne_comment).1 hup).1 hp q (by rw [hwords, hw]; rfl)
              (by rw [word, hq, hat])
            obtain rfl : t = q := by simpa using hnext
            rw [hc] at hq
            cases hq
          rw [hw] at h
          obtain ⟨r', hr', hstep, hadv⟩ := advance_comment hc hq h
          rw [← hw] at hadv
          rw [Reader.advance_cons hstep]
          exact advance_of_words hregs huns (unites_of_idle hr') hadv
    · have hwords : words (t :: ts) = t :: words ts := by simp [words, hc]
      rw [hwords] at h
      cases hs : r.step standard t with
      | error e =>
        rw [Reader.advance, hs] at h
        cases h
      | ok r' =>
        rw [Reader.advance_cons hs] at h ⊢
        exact advance_of_words hregs huns (step_unites hrun hun ht hs) h

end Reading

/-! ## Trees written back as tokens -/

namespace Node
open Token (Word word)

mutual

/-- **A tree as tokens**: the token of a leaf; a bracket, the elements that were written in it, and its partner; or
punctuation and the expression that it abbreviates a list of. -/
def written (d : Dialect) : Node → List Word
  | .leaf _ t => [t.word]
  | .list es t =>
    if t.kind = .punctuation then t.word :: ((writtenEach d es).drop 1).flatten
    else
      let inside := if d.bracketSugar.contains t.lexeme then (writtenEach d es).drop 1 else writtenEach d es
      t.word :: (inside.flatten ++ [(.closeBracket, d.matching t.lexeme)])

def writtenEach (d : Dialect) : List Node → List (List Word)
  | [] => []
  | n :: ns => written d n :: writtenEach d ns

end

theorem writtenEach_eq_map (d : Dialect) (ns : List Node) : writtenEach d ns = ns.map (written d) := by
  induction ns with
  | nil => rfl
  | cons n ns ih => rw [writtenEach, ih, List.map_cons]

end Node

namespace Reading
open Token (word words joined fused Adjacent Unsplit Uninterrupted Word)

def joinSplicing : List Word → List Word
  | [] => []
  | [w] => [w]
  | w :: w' :: ws =>
    if w = (.punctuation, ",") ∧ w' = (.punctuation, "@") then (.punctuation, ",@") :: joinSplicing ws
    else w :: joinSplicing (w' :: ws)

theorem joinSplicing_cons {w : Word} {ws : List Word}
    (h : w = (.punctuation, ",") → ws.head? ≠ some (.punctuation, "@")) :
    joinSplicing (w :: ws) = w :: joinSplicing ws := by
  cases ws with
  | nil => rfl
  | cons w' ws =>
    rw [joinSplicing, if_neg]
    rintro ⟨hw, hw'⟩
    exact h hw (by rw [hw']; rfl)

/-- An abbreviation of the language is written as one token, or it is a comma and an at-sign. -/
theorem eq_nil_or_splicing {p : Token} {ps : List Token} {symbol : String}
    (hkey : standard.punctuationSugar.get? (joined (p :: ps)) = some symbol) (hne : ∀ t ∈ p :: ps, t.lexeme ≠ "") :
    ps = [] ∨ (p.lexeme = "," ∧ ∃ q, ps = [q] ∧ q.lexeme = "@") := by
  rcases ps with _ | ⟨q, qs⟩
  · exact .inl rfl
  right
  have hbegins := beginsSugar_of_get? hkey
  have hp := hne p (by simp)
  have hq := hne q (by simp)
  have hjoin : joined (p :: q :: qs) = p.lexeme ++ (q.lexeme ++ joined qs) := by simp [joined]
  rw [hjoin] at hbegins
  obtain ⟨hcomma, hat⟩ := eq_splicing_of_beginsSugar hp (by simp [hq]) hbegins
  -- a third token would make the first two a comma
  obtain rfl : qs = [] := by
    rcases qs with _ | ⟨c, cs⟩
    · rfl
    · have hc : joined (c :: cs) ≠ "" := by simp [joined, hne c (by simp)]
      rw [← String.append_assoc] at hbegins
      have hpair := (eq_splicing_of_beginsSugar (by simp [hp]) hc hbegins).1
      rw [hcomma] at hpair
      exact absurd (congrArg String.length hpair) (by simpa [String.length_append] using hq)
  exact ⟨hcomma, q, rfl, by simpa [joined] using hat⟩

theorem written_items_append {items : List (List Token × Node)}
    (h : ∀ i ∈ items, ∀ rest : List Word,
      joinSplicing (i.1.map word ++ rest) = i.2.written standard ++ joinSplicing rest) (rest : List Word) :
    joinSplicing ((items.flatMap Prod.fst).map word ++ rest) =
      (Node.writtenEach standard (items.map Prod.snd)).flatten ++ joinSplicing rest := by
  induction items with
  | nil => rfl
  | cons i items ih =>
    obtain ⟨hi, hitems⟩ := List.forall_mem_cons.1 h
    rw [List.flatMap_cons, List.map_append, List.append_assoc, hi, ih hitems]
    simp [Node.writtenEach]

/-- **The tree of a derivation, written back, is what it was derived from.** -/
theorem Derives.written_append {ts : List Token} {n : Node} (h : Derives standard ts n)
    (hreg : ∀ t ∈ ts, t.Regular standard) :
    ∀ rest : List Word, joinSplicing (ts.map word ++ rest) = n.written standard ++ joinSplicing rest := by
  have hother : ∀ {t : Token} {k : Token.Kind}, t.kind = k → k ≠ .punctuation → ∀ ws : List Word,
      joinSplicing (word t :: ws) = word t :: joinSplicing ws := by
    intro t k hk hne ws
    apply joinSplicing_cons
    intro h
    exact absurd (hk.symm.trans (congrArg Prod.fst h)) hne
  induction h with
  | atom ht => exact hother ht (by decide)
  | string ht => exact hother ht (by decide)
  | @list o c items ho hc hm hb _ ih =>
    intro rest
    have hitems := fun i hi => ih i hi (forall_mem_item hreg i hi)
    have hplain : standard.bracketSugar.contains o.lexeme = false := by rw [Table.contains, hb]; rfl
    have hclose : word c = (.closeBracket, standard.matching o.lexeme) := by rw [word, hc, hm]
    simp only [List.map_cons, List.map_append, List.map_nil, List.cons_append, List.append_assoc, List.nil_append]
    rw [hother ho (by decide), written_items_append hitems, hother hc (by decide), hclose]
    simp [Node.written, ho, hplain]
  | @sugaredList o c symbol items ho hc hm hb _ ih =>
    intro rest
    have hitems := fun i hi => ih i hi (forall_mem_item hreg i hi)
    have hsugar : standard.bracketSugar.contains o.lexeme = true := by rw [Table.contains, hb]; rfl
    have hclose : word c = (.closeBracket, standard.matching o.lexeme) := by rw [word, hc, hm]
    simp only [List.map_cons, List.map_append, List.map_nil, List.cons_append, List.append_assoc, List.nil_append]
    rw [hother ho (by decide), written_items_append hitems, hother hc (by decide), hclose]
    simp [Node.written, Node.writtenEach, ho, hsugar]
  | @sugared p ps ts symbol n hp hkey hn ih =>
    intro rest
    have hne : ∀ t ∈ p :: ps, t.lexeme ≠ "" := by
      intro t ht
      have hr := hreg t (by simp only [List.mem_cons, List.mem_append] at ht ⊢; tauto)
      simpa [Token.Regular, hp t ht] using hr
    have hoperand := ih (fun u hu => hreg u (by simp [hu]))
    have hwritten : Node.written standard (.list [.leaf (.symbol symbol) (fused p ps), n] (fused p ps)) =
        (.punctuation, joined (p :: ps)) :: n.written standard := by
      have hk : (fused p ps).kind = .punctuation := hp p (by simp)
      simp [Node.written, Node.writtenEach, word, hk]
      rfl
    rw [hwritten]
    rcases eq_nil_or_splicing hkey hne with rfl | ⟨hcomma, q, rfl, hat⟩
    · have hword : word p = (.punctuation, joined [p]) := by simp [word, hp p (by simp), joined]
      simp only [List.map_cons, List.nil_append, List.cons_append]
      rw [joinSplicing_cons, hoperand, hword]
      -- an operand begins no abbreviation with an at-sign
      intro _ hhead
      obtain ⟨t, us, rfl, ht⟩ := hn.head
      obtain ⟨hk, hl⟩ : t.kind = .punctuation ∧ t.lexeme = "@" := by simpa [word] using hhead
      have hb := ht hk
      rw [hl] at hb
      exact absurd hb (by decide)
    · have hwp : word p = (.punctuation, ",") := by rw [word, hp p (by simp), hcomma]
      have hwq : word q = (.punctuation, "@") := by rw [word, hp q (by simp), hat]
      have hjoin : joined [p, q] = ",@" := by simp [joined, hcomma, hat]
      simp only [List.map_cons, List.nil_append, List.cons_append]
      rw [hwp, hwq, joinSplicing, if_pos ⟨rfl, rfl⟩, hoperand, hjoin]

/-! ## The texts that are read -/

section Units
variable {ts : List Token} {ns : List Node}

theorem Units.advance (h : Units standard ts ns) (hreg : ∀ t ∈ ts, t.Regular standard) :
    Reader.start.advance standard ts = .ok ⟨ns.reverse, [], none⟩ := by
  obtain ⟨items, hitems, rfl, rfl⟩ := h
  have hitem : ∀ i ∈ items, ∀ r : Reader, r.run = none →
      r.advance standard i.1 = .ok (Reader.place r.finished r.stack i.2) :=
    fun i hi => (hitems i hi).advance fun t ht => hreg t (List.mem_flatMap.2 ⟨i, hi, ht⟩)
  rw [advance_items hitem _ rfl, Reader.start, Reader.placeAll_idle, List.append_nil]

theorem Units.written (h : Units standard ts ns) (hreg : ∀ t ∈ ts, t.Regular standard) :
    ns.flatMap (Node.written standard) = joinSplicing (ts.map word) := by
  obtain ⟨items, hitems, rfl, rfl⟩ := h
  have hitem : ∀ i ∈ items, ∀ rest : List Word,
      joinSplicing (i.1.map word ++ rest) = i.2.written standard ++ joinSplicing rest :=
    fun i hi => (hitems i hi).written_append fun t ht => hreg t (List.mem_flatMap.2 ⟨i, hi, ht⟩)
  have hall := written_items_append hitem []
  rw [List.append_nil, joinSplicing, List.append_nil, Node.writtenEach_eq_map] at hall
  rw [hall, List.flatMap_def]

end Units

theorem scan_regular_standard (text : List Char) : ∀ t ∈ (Scan.ofText standard text).tokens, t.Regular standard :=
  Cursor.scan_regular (by decide) (Cursor.start text)

/-- A text whose tokens have no error ends after the last of them. -/
theorem forall_lexed_error_eq_none_iff {s : Scan} :
    (∀ l ∈ s.lexed, l.error = none) ↔ ∃ p, s.ending = .finished p := by
  rcases s with ⟨ts, p | ⟨t, e⟩⟩
  · simp [Scan.lexed]
  · simp [Scan.lexed]

theorem lexed_token_of_finished {s : Scan} {p : Position} (h : s.ending = .finished p) :
    s.lexed.map Lexed.token = s.tokens := by
  simp [Scan.lexed, h, Function.comp_def]

theorem units_of_ofText {text : List Char} (h : (ofText standard text).error = none) :
    (∃ p, (Scan.ofText standard text).ending = .finished p) ∧
      Units standard (words (Scan.ofText standard text).tokens) (ofText standard text).nodes := by
  obtain ⟨finished, p, hadv, hend, hnodes⟩ := Reader.readAll_error_eq_none h
  refine ⟨⟨p, hend⟩, ?_⟩
  have hkind : ∀ t ∈ (Scan.ofText standard text).tokens, t.kind ≠ .endOfStream := by
    intro t ht hk
    have hreg := scan_regular_standard text t ht
    simp [Token.Regular, hk] at hreg
  have hrep := advance_represents represents_start hkind hadv
  rw [List.nil_append] at hrep
  rw [show (ofText standard text).nodes = finished.reverse from hnodes]
  exact units_of_represents hrep

theorem ofText_of_units_of_unsplit {text : List Char} {p : Position} {ns : List Node}
    (hun : Unsplit (Scan.ofText standard text).tokens) (hend : (Scan.ofText standard text).ending = .finished p)
    (hns : Units standard (words (Scan.ofText standard text).tokens) ns) : ofText standard text = ⟨ns, none⟩ := by
  have hadv := hns.advance fun t ht => scan_regular_standard text t (List.mem_of_mem_filter ht)
  have hread := Reader.readAll_of_advance
    (advance_of_words (scan_regular_standard text) hun (unites_of_idle rfl) hadv) (.finished p) []
  rw [List.append_nil] at hread
  simp only [ofText, hend]
  rw [hread]
  simp [Reader.readAll, Reader.finish, Reader.isIdle]

theorem ofText_of_units {text : List Char} {p : Position} {ns : List Node}
    (hun : Uninterrupted (Scan.ofText standard text).tokens) (hend : (Scan.ofText standard text).ending = .finished p)
    (hns : Units standard (words (Scan.ofText standard text).tokens) ns) : ofText standard text = ⟨ns, none⟩ :=
  ofText_of_units_of_unsplit (unsplit_of_uninterrupted hun) hend hns

/-- **The reader accepts its grammar, and loses nothing.** Comments apart, which may not stand between two tokens of
punctuation, a text is read without an error if its tokens have none and are expressions one after the other; their only
derivation has the tree that was read, and the tree written back gives the tokens. -/
theorem ofText_error_eq_none_iff_units (text : List Char)
    (h : Uninterrupted ((Scan.ofText standard text).lexed.map Lexed.token)) :
    let lexed := (Scan.ofText standard text).lexed
    let ts := words (lexed.map Lexed.token)
    let reading := ofText standard text
    (reading.error = none ↔ (∀ l ∈ lexed, l.error = none) ∧ ∃ ns, Units standard ts ns) ∧
      (reading.error = none → (∀ ns, Units standard ts ns ↔ ns = reading.nodes) ∧
        reading.nodes.flatMap (Node.written standard) = joinSplicing (ts.map word)) := by
  intro lexed ts reading
  have hcomplete : (∀ l ∈ lexed, l.error = none) → ∀ ns, Units standard ts ns → reading = ⟨ns, none⟩ := by
    intro hlexed ns hns
    obtain ⟨p, hend⟩ := forall_lexed_error_eq_none_iff.1 hlexed
    have htokens := lexed_token_of_finished hend
    rw [htokens] at h
    rw [show ts = words (Scan.ofText standard text).tokens from congrArg words htokens] at hns
    exact ofText_of_units h hend hns
  have hsound : reading.error = none → (∀ l ∈ lexed, l.error = none) ∧ (∀ t ∈ ts, t.Regular standard) ∧
      Units standard ts reading.nodes := by
    intro herr
    obtain ⟨⟨p, hend⟩, hunits⟩ := units_of_ofText herr
    have hts : ts = words (Scan.ofText standard text).tokens := congrArg words (lexed_token_of_finished hend)
    rw [hts]
    exact ⟨forall_lexed_error_eq_none_iff.2 ⟨p, hend⟩,
      fun t ht => scan_regular_standard text t (List.mem_of_mem_filter ht), hunits⟩
  refine ⟨⟨fun herr => ⟨(hsound herr).1, _, (hsound herr).2.2⟩, ?_⟩, ?_⟩
  · rintro ⟨hlexed, ns, hns⟩
    rw [hcomplete hlexed ns hns]
  · intro herr
    obtain ⟨hlexed, hreg, hunits⟩ := hsound herr
    refine ⟨fun ns => ⟨fun hns => ?_, ?_⟩, hunits.written hreg⟩
    · rw [hcomplete hlexed ns hns]
    · rintro rfl
      exact hunits

/-- A text with a comment behind punctuation, brackets that stand for a symbol, and an abbreviation in two parts. -/
theorem ofText_error_eq_none_iff_units_splicing :
    let text := "' ; of what\n(a , @b [1 \"x\"])".toList
    let ts := words ((Scan.ofText standard text).lexed.map Lexed.token)
    Uninterrupted ((Scan.ofText standard text).lexed.map Lexed.token) ∧ (∃ ns, Units standard ts ns) ∧
      (ofText standard text).nodes.flatMap (Node.written standard) = joinSplicing (ts.map word) := by
  have hun : Uninterrupted
      ((Scan.ofText standard "' ; of what\n(a , @b [1 \"x\"])".toList).lexed.map Lexed.token) := by
    conv => arg 1; cbv
    decide
  have hread : (ofText standard "' ; of what\n(a , @b [1 \"x\"])".toList).error = none := by cbv
  obtain ⟨haccepts, hloses⟩ := ofText_error_eq_none_iff_units _ hun
  exact ⟨hun, (haccepts.1 hread).2, (hloses hread).2⟩

end Reading
end QuasiScript
